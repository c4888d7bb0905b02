import Todb.Model.Wal.Iter
import Todb.Verification.Sst.Footer
import Todb.Verification.Wal.BufferPool
import Todb.Verification.Wal.Ownership

/-! # The pins of a WAL iterator

An iterator holds a pin for every block of the frame it assembles. It never gets as far as to
hold pins on index blocks: the index of a sealed segment cannot be opened. -/

namespace Todb.Wal

open Library

namespace Disk

variable {n : ℕ}

/-! ## A cache with one user -/

namespace Pool

variable {key : BlockKey} {pool : Pool n}

/-- Alone, a call of `read_block` takes its steps one after the other. -/
theorem readBlock_execute {blockSize : ℕ} (files : UInt32 → Bytes) (failure : Option ReadFailure)
    (hcalls : pool.calls = []) :
    (pool.readBlock blockSize (files key.segId) failure key).result = .error .waits ∧
      execute (Pool.step blockSize files) [.call key, .lock 0] pool =
        some { (pool.readBlock blockSize (files key.segId) failure key).state with
          calls := [.waiting key] } ∨
    ∃ labels, (labels = [.call key, .lock 0] ∨
        labels = [.call key, .lock 0, .pread 0 (failure.map (·.got)), .finish 0]) ∧
      execute (Pool.step blockSize files) labels pool =
        some (pool.readBlock blockSize (files key.segId) failure key).state := by
  obtain ⟨cache, calls, guards⟩ := pool
  obtain rfl : calls = [] := hcalls
  cases hhit : cache.pinHit key with
  | some hit => exact .inr ⟨_, .inl rfl, by simp [execute, step, lock, readBlock, hhit, Ran.ok]⟩
  | none =>
      cases hvictim : cache.findVictim with
      | mk victim cache' =>
          cases victim with
          | none =>
              exact .inl ⟨by simp [readBlock, hhit, hvictim, Ran.fail],
                by simp [execute, step, lock, readBlock, hhit, hvictim, Ran.fail]⟩
          | some idx =>
              refine .inr ⟨_, .inr rfl, ?_⟩
              cases failure <;>
                simp [execute, step, lock, readBlock, hhit, hvictim, Ran.fail, Ran.ok]

/-- The only user of the cache holds one guard on each of some blocks. -/
structure Single (pool : Pool n) : Prop where
  pins : ∀ f, (pool.cache.frames f).pinCount = guardsOn pool.guards f
  table : ∀ key f, pool.cache.table key = some f → (pool.cache.frames f).key = some key
  guardKey : ∀ guard ∈ pool.guards, (pool.cache.frames guard.idx).key = some guard.key
  distinct : (pool.guards.map PinGuard.key).Nodup

namespace Single

theorem init (n blockSize : ℕ) : (Pool.init n blockSize).Single where
  pins f := by simp [Pool.init, ClockCache.new, guardsOn]
  table key f h := by cases h
  guardKey guard h := by cases h
  distinct := List.nodup_nil

/-- Guards on different blocks are on different frames. -/
theorem nodup_idx (h : pool.Single) : (pool.guards.map PinGuard.idx).Nodup := by
  refine List.Nodup.of_map (fun f => (pool.cache.frames f).key) ?_
  have hkeys : (pool.guards.map PinGuard.idx).map (fun f => (pool.cache.frames f).key) =
      (pool.guards.map PinGuard.key).map some := by
    rw [List.map_map, List.map_map]
    exact List.map_congr_left fun guard hguard => h.guardKey guard hguard
  rw [hkeys]
  exact h.distinct.map (Option.some_injective _)

theorem guardsOn_eq (h : pool.Single) (f : Fin n) :
    guardsOn pool.guards f = if f ∈ pool.guards.map PinGuard.idx then 1 else 0 := by
  have hcount : guardsOn pool.guards f = (pool.guards.map PinGuard.idx).count f := by
    rw [guardsOn, List.count, List.countP_map]
    rfl
  rw [hcount, h.nodup_idx.count]

/-- There is a victim as long as there are fewer guards than frames. -/
theorem findVictim_isSome_iff (h : pool.Single) :
    pool.cache.findVictim.1.isSome ↔ pool.guards.length < n := by
  have hlength : (pool.guards.map PinGuard.idx).length = pool.guards.length := by simp
  constructor
  · intro hvictim
    obtain ⟨idx, hidx⟩ := Option.isSome_iff_exists.mp hvictim
    have hfree : idx ∉ pool.guards.map PinGuard.idx := by
      intro hmem
      have hpin := (pool.cache.findVictim_spec.2 idx hidx).symm.trans (h.pins idx)
      rw [h.guardsOn_eq, if_pos hmem] at hpin
      cases hpin
    have hcons := (List.nodup_cons.mpr ⟨hfree, h.nodup_idx⟩).length_le_card
    simpa using hcons
  · intro hlt
    obtain ⟨f, hf⟩ : ∃ f, f ∉ pool.guards.map PinGuard.idx := by
      by_contra hall
      have hsub : Finset.univ ⊆ (pool.guards.map PinGuard.idx).toFinset := fun f _ =>
        List.mem_toFinset.mpr (not_not.mp (not_exists.mp hall f))
      have hcard := (Finset.card_le_card hsub).trans (List.toFinset_card_le _)
      simp at hcard
      omega
    refine Option.isSome_iff_ne_none.mpr (ClockCache.findVictim_ne_none (f := f) ?_)
    rw [h.pins f, h.guardsOn_eq, if_neg hf]

/-- The block is in no frame that has a guard. -/
theorem ne_guard_of_table (h : pool.Single) (hkey : key ∉ pool.guards.map PinGuard.key)
    {f : Fin n} (hf : pool.cache.table key = some f) : f ∉ pool.guards.map PinGuard.idx := by
  intro hmem
  obtain ⟨guard, hguard, rfl⟩ := List.mem_map.mp hmem
  have heq := (h.guardKey guard hguard).symm.trans (h.table key _ hf)
  exact hkey (List.mem_map.mpr ⟨guard, hguard, Option.some.inj heq⟩)

/-- A guard on a frame that had none. -/
theorem add (h : pool.Single) {cache : ClockCache n} {idx : Fin n}
    (hfree : idx ∉ pool.guards.map PinGuard.idx) (hkey : key ∉ pool.guards.map PinGuard.key)
    (hothers : ∀ f, f ≠ idx → (cache.frames f).key = (pool.cache.frames f).key ∧
      (cache.frames f).pinCount = (pool.cache.frames f).pinCount)
    (hpin : (cache.frames idx).pinCount = 1) (hidx : (cache.frames idx).key = some key)
    (htable : ∀ k f, cache.table k = some f →
      f = idx ∧ k = key ∨ f ≠ idx ∧ pool.cache.table k = some f) :
    ({ pool with cache, guards := ⟨idx, key⟩ :: pool.guards } : Pool n).Single where
  pins f := by
    rw [guardsOn_cons]
    by_cases hf : f = idx
    · subst hf
      rw [hpin, h.guardsOn_eq, if_neg hfree]
      simp
    · rw [(hothers f hf).2, h.pins f, if_neg (Ne.symm hf)]
      rfl
  table k f hk := by
    rcases htable k f hk with ⟨rfl, rfl⟩ | ⟨hf, hold⟩
    · exact hidx
    · exact (hothers f hf).1.trans (h.table k f hold)
  guardKey guard hguard := by
    rcases List.mem_cons.mp hguard with rfl | hold
    · exact hidx
    · have hne : guard.idx ≠ idx := fun heq => hfree (List.mem_map.mpr ⟨guard, hold, heq⟩)
      exact (hothers _ hne).1.trans (h.guardKey guard hold)
  distinct := List.nodup_cons.mpr ⟨hkey, h.distinct⟩

/-- A frame without a guard is given up. -/
theorem clear (h : pool.Single) {cache : ClockCache n} {idx : Fin n}
    (hfree : idx ∉ pool.guards.map PinGuard.idx)
    (hothers : ∀ f, f ≠ idx → (cache.frames f).key = (pool.cache.frames f).key ∧
      (cache.frames f).pinCount = (pool.cache.frames f).pinCount)
    (hpin : (cache.frames idx).pinCount = 0)
    (htable : ∀ k f, cache.table k = some f → f ≠ idx ∧ pool.cache.table k = some f) :
    ({ pool with cache } : Pool n).Single where
  pins f := by
    by_cases hf : f = idx
    · subst hf
      rw [hpin, h.guardsOn_eq, if_neg hfree]
    · exact (hothers f hf).2.trans (h.pins f)
  table k f hk := by
    obtain ⟨hf, hold⟩ := htable k f hk
    exact (hothers f hf).1.trans (h.table k f hold)
  guardKey guard hguard := by
    have hne : guard.idx ≠ idx := fun heq => hfree (List.mem_map.mpr ⟨guard, hguard, heq⟩)
    exact (hothers _ hne).1.trans (h.guardKey guard hguard)
  distinct := h.distinct

theorem hit (h : pool.Single) (hkey : key ∉ pool.guards.map PinGuard.key) {idx : Fin n}
    {cache : ClockCache n} (hhit : pool.cache.pinHit key = some (idx, cache)) :
    ({ pool with cache, guards := ⟨idx, key⟩ :: pool.guards } : Pool n).Single := by
  obtain ⟨idx', hidx, heq⟩ := Option.map_eq_some_iff.mp hhit
  obtain ⟨rfl, rfl⟩ := Prod.mk.inj heq
  have hfree := h.ne_guard_of_table hkey hidx
  refine h.add hfree hkey (fun f hf => ?_) ?_ ?_ fun k f hk => ?_
  · simp [ClockCache.modify_frames_of_ne _ _ hf]
  · simp [h.pins, h.guardsOn_eq, hfree]
  · simpa using h.table key idx' hidx
  · by_cases hf : f = idx'
    · subst hf
      exact .inl ⟨rfl, Option.some.inj ((h.table k f hk).symm.trans (h.table key f hidx))⟩
    · exact .inr ⟨hf, hk⟩

/-- The table after `prepare_load` does not lead to the victim any more. -/
theorem table_prepareLoad (h : pool.Single) {idx f : Fin n} {k : BlockKey}
    (hk : (pool.cache.prepareLoad idx).table k = some f) :
    f ≠ idx ∧ pool.cache.table k = some f := by
  simp only [ClockCache.prepareLoad] at hk
  split at hk
  · rename_i old hold
    by_cases hkold : k = old
    · subst hkold
      simp at hk
    · rw [Function.update_of_ne hkold] at hk
      refine ⟨?_, hk⟩
      rintro rfl
      exact hkold (Option.some.inj ((h.table k f hk).symm.trans hold))
  · rename_i hnone
    refine ⟨?_, hk⟩
    rintro rfl
    exact absurd ((h.table k f hk).symm.trans hnone) (by simp)

theorem sameButRef (h : pool.Single) {cache : ClockCache n}
    (hsame : ClockCache.SameButRef pool.cache cache) : ({ pool with cache } : Pool n).Single where
  pins f := (hsame.pinCount f).trans (h.pins f)
  table k f hk := (hsame.key f).trans (h.table k f (hsame.table ▸ hk))
  guardKey guard hguard := (hsame.key _).trans (h.guardKey guard hguard)
  distinct := h.distinct

theorem commit (h : pool.Single) {idx : Fin n} (hfree : idx ∉ pool.guards.map PinGuard.idx)
    (hkey : key ∉ pool.guards.map PinGuard.key) (buf : Frame → Bytes) :
    ({ pool with
      cache := ((pool.cache.prepareLoad idx).modify idx fun f =>
        { f with buf := buf f }).commitLoad idx key
      guards := ⟨idx, key⟩ :: pool.guards } : Pool n).Single := by
  refine h.add hfree hkey (fun f hf => ?_) ?_ ?_ fun k f hk => ?_
  · simp [ClockCache.commitLoad, ClockCache.prepareLoad, ClockCache.modify, hf]
  · simp [ClockCache.commitLoad, ClockCache.prepareLoad, ClockCache.modify]
  · simp [ClockCache.commitLoad, ClockCache.modify]
  · by_cases hkk : k = key
    · subst hkk
      refine .inl ⟨?_, rfl⟩
      simpa [ClockCache.commitLoad, eq_comm] using hk
    · have hprepared : (pool.cache.prepareLoad idx).table k = some f := by
        simpa [ClockCache.commitLoad, hkk] using hk
      exact .inr (h.table_prepareLoad hprepared)

theorem abort (h : pool.Single) {idx : Fin n} (hfree : idx ∉ pool.guards.map PinGuard.idx)
    (buf : Frame → Bytes) :
    ({ pool with
      cache := ((pool.cache.prepareLoad idx).modify idx fun f =>
        { f with buf := buf f }).unpin idx } : Pool n).Single := by
  refine h.clear hfree (fun f hf => ?_) ?_ fun k f hk => h.table_prepareLoad hk
  · simp [ClockCache.unpin, ClockCache.prepareLoad, ClockCache.modify, hf]
  · simp [ClockCache.unpin, ClockCache.prepareLoad, ClockCache.modify]

/-- With a free frame, `read_block` returns a guard or an error. -/
theorem readBlock_of_lt (h : pool.Single) (blockSize : ℕ) (file : Bytes)
    (failure : Option ReadFailure) (hkey : key ∉ pool.guards.map PinGuard.key)
    (hlt : pool.guards.length < n) :
    (∃ pool' : Pool n, pool.readBlock blockSize file failure key = .ok pool' ∧ pool'.Single ∧
      pool'.guards.map PinGuard.key = key :: pool.guards.map PinGuard.key) ∨
    failure ≠ none ∧ ∃ (e : WalError) (pool' : Pool n),
      pool.readBlock blockSize file failure key = .fail (.err e) pool' ∧ pool'.Single := by
  rw [Pool.readBlock]
  split
  · rename_i idx cache hhit
    exact .inl ⟨_, rfl, h.hit hkey hhit, rfl⟩
  · obtain ⟨idx, hidx⟩ := Option.isSome_iff_exists.mp (h.findVictim_isSome_iff.mpr hlt)
    obtain ⟨hsame, hunpinned⟩ := pool.cache.findVictim_spec
    have hfree : idx ∉ pool.guards.map PinGuard.idx := by
      intro hmem
      have hpin := (hunpinned idx hidx).symm.trans (h.pins idx)
      rw [h.guardsOn_eq, if_pos hmem] at hpin
      cases hpin
    have hsingle := h.sameButRef hsame
    cases hvictim : pool.cache.findVictim with
    | mk victim cache =>
        rw [hvictim] at hidx hsingle
        obtain rfl : victim = some idx := hidx
        cases failure with
        | none => exact .inl ⟨_, rfl, hsingle.commit hfree hkey _, rfl⟩
        | some failure => exact .inr ⟨by simp, _, _, rfl, hsingle.abort hfree _⟩

/-- Without one, it waits. -/
theorem readBlock_of_le (h : pool.Single) (blockSize : ℕ) (file : Bytes)
    (failure : Option ReadFailure) (hkey : key ∉ pool.guards.map PinGuard.key)
    (hle : n ≤ pool.guards.length) :
    ∃ pool' : Pool n, pool.readBlock blockSize file failure key = .fail .waits pool' ∧
      pool'.Single := by
  have hnone : pool.cache.findVictim.1 = none := by
    rw [← Option.not_isSome_iff_eq_none, h.findVictim_isSome_iff]
    omega
  have hmiss : pool.cache.pinHit key = none := by
    refine Option.map_eq_none_iff.mpr (Option.eq_none_iff_forall_ne_some.mpr fun f hf => ?_)
    have hfree := h.ne_guard_of_table hkey hf
    have hcons := (List.nodup_cons.mpr ⟨hfree, h.nodup_idx⟩).length_le_card
    simp at hcons
    omega
  have hsingle := h.sameButRef pool.cache.findVictim_spec.1
  rw [Pool.readBlock, hmiss]
  cases hvictim : pool.cache.findVictim with
  | mk victim cache =>
      rw [hvictim] at hnone hsingle
      obtain rfl : victim = none := hnone
      exact ⟨_, rfl, hsingle⟩

theorem drop {cache : ClockCache n} {calls : List (Call n)} {guard : PinGuard n}
    {guards : List (PinGuard n)} (h : (⟨cache, calls, guard :: guards⟩ : Pool n).Single) :
    (⟨cache.unpin guard.idx, calls, guards⟩ : Pool n).Single where
  pins f := by
    have hpins := h.pins f
    by_cases hf : f = guard.idx
    · subst hf
      have hone := h.guardsOn_eq guard.idx
      rw [if_pos (by simp)] at hone
      simp only [guardsOn_cons, if_true] at hpins hone
      simp only [ClockCache.unpin, ClockCache.modify_frames_self, hpins]
      omega
    · rw [guardsOn_cons, if_neg (Ne.symm hf)] at hpins
      simpa [ClockCache.unpin, ClockCache.modify_frames_of_ne _ _ hf] using hpins
  table k f hk := by
    have hkey := h.table k f hk
    by_cases hf : f = guard.idx
    · subst hf
      simpa [ClockCache.unpin] using hkey
    · simpa [ClockCache.unpin, ClockCache.modify_frames_of_ne _ _ hf] using hkey
  guardKey g hg := by
    have hkey := h.guardKey g (List.mem_cons_of_mem _ hg)
    by_cases hf : g.idx = guard.idx
    · rw [hf] at hkey ⊢
      simpa [ClockCache.unpin] using hkey
    · simpa [ClockCache.unpin, ClockCache.modify_frames_of_ne _ _ hf] using hkey
  distinct := (List.nodup_cons.mp h.distinct).2

theorem dropGuards (h : pool.Single) : pool.dropGuards.Single := by
  obtain ⟨cache, calls, guards⟩ := pool
  induction guards generalizing cache with
  | nil => exact h
  | cons guard guards ih => exact ih _ h.drop

end Single

/-! ### The reads of a frame -/

/-- The number of guards at each call of `read_block` in `read_blocks`. -/
def readPins (blockSize : ℕ) (file : Bytes) (failures : BlockKey → Option ReadFailure) :
    List BlockKey → Pool n → List ℕ
  | [], _ => []
  | key :: keys, self =>
      self.guards.length ::
        match (self.readBlock blockSize file (failures key) key).outcome with
        | .ok self => readPins blockSize file failures keys self
        | .error _ => []

variable {blockSize : ℕ} {file : Bytes} {failures : BlockKey → Option ReadFailure}
  {keys : List BlockKey}

/-- The blocks to come are neither read twice nor guarded already. -/
structure Fresh (pool : Pool n) (keys : List BlockKey) : Prop where
  nodup : keys.Nodup
  unguarded : ∀ key ∈ keys, key ∉ pool.guards.map PinGuard.key

theorem Fresh.next {pool' : Pool n} (h : pool.Fresh (key :: keys))
    (hguards : pool'.guards.map PinGuard.key = key :: pool.guards.map PinGuard.key) :
    pool'.Fresh keys where
  nodup := (List.nodup_cons.mp h.nodup).2
  unguarded k hk := by
    rw [hguards, List.mem_cons, not_or]
    refine ⟨?_, h.unguarded k (List.mem_cons_of_mem _ hk)⟩
    rintro rfl
    exact (List.nodup_cons.mp h.nodup).1 hk

theorem Single.readBlocks (h : pool.Single) (hkeys : pool.Fresh keys) :
    (pool.readBlocks blockSize file failures keys).state.Single := by
  induction keys generalizing pool with
  | nil => exact h
  | cons key keys ih =>
      have hkey := hkeys.unguarded key List.mem_cons_self
      rw [Pool.readBlocks]
      rcases lt_or_ge pool.guards.length n with hlt | hle
      · rcases h.readBlock_of_lt blockSize file (failures key) hkey hlt with
          ⟨pool', hread, hsingle, hguards⟩ | ⟨-, e, pool', hread, hsingle⟩
        · rw [hread]
          exact ih hsingle (hkeys.next hguards)
        · rw [hread]
          exact hsingle
      · obtain ⟨pool', hread, hsingle⟩ := h.readBlock_of_le blockSize file (failures key) hkey hle
        rw [hread]
        exact hsingle

/-- With a frame for every block, no read waits. -/
theorem Single.readBlocks_of_le (h : pool.Single) (hkeys : pool.Fresh keys)
    (hle : pool.guards.length + keys.length ≤ n) :
    (pool.readBlocks blockSize file failures keys).result ≠ .error .waits ∧
      ∀ pins ∈ pool.readPins blockSize file failures keys, pins < n := by
  induction keys generalizing pool with
  | nil => exact ⟨by simp [Pool.readBlocks, Ran.ok], by simp [readPins]⟩
  | cons key keys ih =>
      rw [List.length_cons] at hle
      have hlt : pool.guards.length < n := by omega
      rw [Pool.readBlocks, readPins]
      rcases h.readBlock_of_lt blockSize file (failures key) (hkeys.unguarded key List.mem_cons_self)
        hlt with ⟨pool', hread, hsingle, hguards⟩ | ⟨-, e, pool', hread, -⟩
      · have hlength : pool'.guards.length = pool.guards.length + 1 := by
          simpa using congrArg List.length hguards
        obtain ⟨hresult, hpins⟩ := ih hsingle (hkeys.next hguards) (by omega)
        rw [hread]
        exact ⟨hresult, List.forall_mem_cons.mpr ⟨hlt, hpins⟩⟩
      · rw [hread]
        exact ⟨by simp [Ran.fail, Ran.bind], by simpa [Ran.outcome, Ran.fail] using hlt⟩

/-- With fewer frames than blocks, a read waits when all I/O succeeds. -/
theorem Single.readBlocks_of_lt (h : pool.Single) (hkeys : pool.Fresh keys)
    (hfull : pool.guards.length ≤ n) (hlt : n < pool.guards.length + keys.length) :
    (pool.readBlocks blockSize file (fun _ => none) keys).result = .error .waits ∧
      n ∈ pool.readPins blockSize file (fun _ => none) keys := by
  induction keys generalizing pool with
  | nil =>
      simp only [List.length_nil] at hlt
      omega
  | cons key keys ih =>
      have hkey := hkeys.unguarded key List.mem_cons_self
      rw [Pool.readBlocks, readPins]
      rcases hfull.lt_or_eq with hfree | heq
      · rcases h.readBlock_of_lt blockSize file none hkey hfree with
          ⟨pool', hread, hsingle, hguards⟩ | ⟨hfail, -⟩
        · have hlength : pool'.guards.length = pool.guards.length + 1 := by
            simpa using congrArg List.length hguards
          rw [List.length_cons] at hlt
          obtain ⟨hresult, hpins⟩ := ih hsingle (hkeys.next hguards) (by omega) (by omega)
          rw [hread]
          exact ⟨hresult, List.mem_cons_of_mem _ hpins⟩
        · exact absurd rfl hfail
      · obtain ⟨pool', hread, -⟩ := h.readBlock_of_le blockSize file none hkey heq.ge
        rw [hread]
        exact ⟨rfl, List.mem_cons.mpr (.inl heq.symm)⟩

end Pool

/-! ## Raw reads -/

theorem slice_preadInto {file : Bytes} {start total skip len : ℕ} (htotal : skip + len ≤ total)
    (hfile : start + skip + len ≤ file.length) :
    slice (preadInto file (List.replicate total 0) start) skip (skip + len) =
      .ok ((file.drop (start + skip)).take len) := by
  have hgot : ((file.drop start).take total).length = min total (file.length - start) := by simp
  rw [preadInto, List.length_replicate, slice_eq_ok (Nat.le_add_right ..)
    (by rw [List.length_append, hgot]; omega), Nat.add_sub_cancel_left]
  rw [List.drop_append_of_le_length (by rw [hgot]; omega),
    List.take_append_of_le_length (by rw [List.length_drop, hgot]; omega), List.drop_take,
    List.drop_drop, List.take_take, min_eq_left (by omega)]

theorem rawRead_eq {blockSize : ℕ} (hsize : blockSize ≠ 0) {file : Bytes} {offset len : ℕ}
    (hfile : offset + len ≤ file.length) :
    rawRead blockSize file offset len = .ok ((file.drop offset).take len) := by
  have haligned : offset / blockSize * blockSize ≤ offset := Nat.div_mul_le_self ..
  have hcover : ∀ m, m ≤ (m + blockSize - 1) / blockSize * blockSize := by
    intro m
    have hdiv := Nat.div_add_mod (m + blockSize - 1) blockSize
    have hmod := Nat.mod_lt (m + blockSize - 1) (Nat.pos_of_ne_zero hsize)
    rw [Nat.mul_comm] at hdiv
    omega
  rw [rawRead, if_neg hsize]
  dsimp only
  rw [slice_preadInto (hcover _) (by omega), Nat.add_sub_cancel' haligned]

end Disk

/-! ## Sealed segments -/

/-- A file that ends in zeros has no footer. -/
theorem fromSealedSegment_of_zeros {fuel blockSize : ℕ} (hsize : blockSize ≠ 0) {segment : Segment}
    {front : Bytes} (hfile : segment.metaFile = front ++ List.replicate 4 0) :
    SegmentIndexIter.fromSealedSegment fuel blockSize segment =
      .error (.err (.io "decode footer: invalid values: footer body too short")) := by
  have hlength : segment.metaFile.length = front.length + 4 := by simp [hfile]
  have htrailer : Disk.rawRead blockSize segment.metaFile (front.length + 4 - 4) 4 =
      .ok (List.replicate 4 0) := by
    rw [Disk.rawRead_eq hsize (by omega), Nat.add_sub_cancel, hfile]
    simp
  have hzero : ofBe (List.replicate 4 0) + 4 = 4 := rfl
  have hdecode : SstFooter.decode (List.replicate 4 0) =
      .error (.err (.invalidValue "footer body too short")) := rfl
  simp only [SegmentIndexIter.fromSealedSegment, hlength, htrailer, Except.mapError, bind,
    Except.bind, hzero, hdecode]
  rw [if_neg (by omega), if_neg (by omega)]
  rfl

theorem fromSealedSegment_of_nil {fuel blockSize : ℕ} {segment : Segment}
    (hfile : segment.metaFile = []) :
    SegmentIndexIter.fromSealedSegment fuel blockSize segment =
      .error (.err (.io "idx file too small")) := by
  simp only [SegmentIndexIter.fromSealedSegment, hfile, List.length_nil]
  rfl

/-- Behind a header there are only zeros. -/
theorem metaFile_cases (crc32 : Bytes → UInt32) {blockSize : ℕ} (hsize : 40 ≤ blockSize)
    (files : SegmentFiles) :
    files.metaFile crc32 blockSize = [] ∨
      ∃ front, files.metaFile crc32 blockSize = front ++ List.replicate 4 0 := by
  have hblock : ∀ header, Meta.headerBlock blockSize header =
      (header.serialize ++ List.replicate (blockSize - 40) 0) ++ List.replicate 4 0 := by
    intro header
    rw [Meta.headerBlock, List.append_assoc, ← List.replicate_add]
    simp only [Meta.idxHeaderLen]
    congr 2
    omega
  unfold SegmentFiles.metaFile
  split
  · exact .inl rfl
  · dsimp only
    rw [hblock]
    exact .inr ⟨_, (List.append_assoc _ _ _).symm⟩

/-- The index of a sealed segment is never opened: `meta_fd` is not the index. -/
theorem fromSealedSegment_eq_error (fuel : ℕ) (crc32 : Bytes → UInt32) {blockSize : ℕ}
    (hsize : 40 ≤ blockSize) (segId : UInt32) (files : Option SegmentFiles) :
    ∃ e, SegmentIndexIter.fromSealedSegment fuel blockSize
      ⟨segId, (files.map (·.metaFile crc32 blockSize)).getD []⟩ = .error (.err e) := by
  cases files with
  | none => exact ⟨_, fromSealedSegment_of_nil rfl⟩
  | some files =>
      rcases metaFile_cases crc32 hsize files with hnil | ⟨front, hfront⟩
      · exact ⟨_, fromSealedSegment_of_nil hnil⟩
      · exact ⟨_, fromSealedSegment_of_zeros (by omega) hfront⟩

/-! ## The index of an iterator -/

namespace WalIter

variable {fuel n : ℕ}

variable {α β κ ν : Type} [LinearOrder κ] [Cursor α κ ν Fault] [Cursor β κ ν Fault]

/-- What a merge does between two moves of its first side. -/
theorem skipB_a (d : Direction) (k : ℕ) (s : TwoMergeIter fuel α β) :
    (TwoMergeIter.skipB d k s).state.a = s.a := by
  induction k generalizing s with
  | zero => rfl
  | succ k ih =>
      rw [TwoMergeIter.skipB]
      split
      · refine Ran.read_state (P := fun t : TwoMergeIter fuel α β => t.a = s.a) rfl fun ak => ?_
        refine Ran.read_state (P := fun t : TwoMergeIter fuel α β => t.a = s.a) rfl fun bk => ?_
        split
        · exact Ran.bind_state (P := fun t : TwoMergeIter fuel α β => t.a = s.a) rfl fun t ht => (ih t).trans ht
        · rfl
      · rfl

theorem settle_a (d : Direction) (s : TwoMergeIter fuel α β) :
    (TwoMergeIter.settle d s).state.a = s.a :=
  Ran.bind_state (P := fun t : TwoMergeIter fuel α β => t.a = s.a) (skipB_a d fuel s)
    fun _ ht => Ran.read_state (P := fun t : TwoMergeIter fuel α β => t.a = s.a) ht fun _ => ht

/-- A property of the first side that its moves keep. -/
theorem place_a {P : α → Prop} (d : Direction) {moveA : α → Ran Fault α} (moveB : β → Ran Fault β)
    (s : TwoMergeIter fuel α β) (h : P (moveA s.a).state) :
    P (TwoMergeIter.place d moveA moveB s).state.a :=
  Ran.bind_state (P := fun t : TwoMergeIter fuel α β => P t.a) h fun _ ht =>
    Ran.bind_state (P := fun t : TwoMergeIter fuel α β => P t.a) ht fun t ht => by rwa [settle_a]

theorem next_a {P : α → Prop} (d : Direction) (s : TwoMergeIter fuel α β) (hs : P s.a)
    (h : P (Cursor.next d s.a).state) : P (TwoMergeIter.next d s).state.a := by
  rw [TwoMergeIter.next]
  split
  · exact Ran.bind_state (P := fun t : TwoMergeIter fuel α β => P t.a) h fun t ht => by rwa [settle_a]
  · exact Ran.bind_state (P := fun t : TwoMergeIter fuel α β => P t.a) hs fun t ht => by rwa [settle_a]
  · exact hs

section Concat

variable {ι κ ν : Type} [Cursor ι κ ν Fault] {s : ConcatIter ι}

theorem concat_seekToFirst_nil (hs : s.iter = []) :
    (Cursor.seekToFirst .forward s).state.iter = [] := by
  simp [Cursor.seekToFirst, ConcatIter.seekToFirst, ConcatIter.forwardLoop, hs, Ran.ok]

theorem concat_seek_nil (hs : s.iter = []) (target : κ) :
    (Cursor.seek .forward s target).state.iter = [] := by
  simp [Cursor.seek, ConcatIter.seek, ConcatIter.forwardLoop, hs, Ran.ok]

theorem concat_next_nil (hs : s.iter = []) :
    (Cursor.next .forward s).state.iter = [] := by
  simp [Cursor.next, ConcatIter.next, ConcatIter.valid, hs, Ran.ok]

end Concat

/-! ## Between calls -/

/-- An iterator outside of its calls: it has no cursor on a sealed index, and no guards. -/
structure Rests (iter : WalIter fuel n) : Prop where
  unindexed : iter.indexIter.a.iter = []
  single : iter.dm.Single
  released : iter.dm.guards = []

variable {crc32 : Bytes → UInt32} {self iter : WalIter fuel n}

theorem Rests.onIndex (h : self.Rests) {text : String}
    {r : Ran Fault (TwoMergeIter fuel (ConcatIter (SstIndexIter fuel)) MemTableIndexIter)}
    (hr : r.state.a.iter = []) : (self.onIndex text r).state.Rests :=
  ⟨hr, h.single, h.released⟩

theorem Rests.refresh (h : self.Rests) (mems : Lsm.MemId → IndexMem) :
    (self.refresh mems).Rests :=
  ⟨h.unindexed, h.single, h.released⟩

theorem Rests.next (h : self.Rests) : self.next.state.Rests :=
  h.onIndex (next_a (P := fun a => a.iter = []) .forward self.indexIter h.unindexed
    (concat_next_nil h.unindexed))

theorem Rests.seekToFirst (h : self.Rests) : self.seekToFirst.state.Rests :=
  h.onIndex (place_a (P := fun a => a.iter = []) .forward _ self.indexIter
    (concat_seekToFirst_nil h.unindexed))

theorem Rests.seek (h : self.Rests) (lsn : ℕ) : (self.seek lsn).state.Rests :=
  h.onIndex (place_a (P := fun a => a.iter = []) .forward _ self.indexIter
    (concat_seek_nil h.unindexed _))

end WalIter

/-- The blocks of a frame are different ones. -/
theorem IndexEntry.blocks_nodup {blockSize : ℕ} {entry : IndexEntry}
    {keys : List Disk.BlockKey} (h : entry.blocks blockSize = .ok keys) : keys.Nodup := by
  unfold IndexEntry.blocks at h
  split at h
  · cases h
  · rename_i hbound
    obtain rfl := Except.ok.inj h
    refine List.Nodup.map_on ?_ (List.nodup_range' ..)
    intro a ha b hb heq
    have hlt : (entry.offset + entry.len - 1) / blockSize < 2 ^ 64 :=
      (Nat.div_le_self ..).trans_lt (by omega)
    have ha' := List.mem_range'_1.mp ha
    have hb' := List.mem_range'_1.mp hb
    have hkey := congrArg (fun key : Disk.BlockKey => key.blockIdx.toNat) heq
    simp only [UInt64.toNat_ofNat'] at hkey
    rw [Nat.mod_eq_of_lt (by omega), Nat.mod_eq_of_lt (by omega)] at hkey
    exact hkey

theorem mapError_eq_ok {ε ε' α : Type} {f : ε → ε'} {x : Except ε α} {a : α} :
    x.mapError f = .ok a ↔ x = .ok a := by
  cases x <;> simp [Except.mapError]

namespace WalIter

variable {fuel n : ℕ} {crc32 : Bytes → UInt32} {self iter : WalIter fuel n}
  {logs : UInt32 → Bytes} {failures : Disk.BlockKey → Option ReadFailure}

theorem Rests.fresh (h : self.Rests) {keys : List Disk.BlockKey} (hkeys : keys.Nodup) :
    self.dm.Fresh keys :=
  ⟨hkeys, fun key _ => by simp [h.released]⟩

theorem Rests.loadCurrentFrame (h : self.Rests) :
    (self.loadCurrentFrame crc32 logs failures).2.Rests := by
  unfold WalIter.loadCurrentFrame
  split
  · exact h
  · exact h
  · split
    · exact h
    · rename_i entry _ _ keys hkeys
      have hnodup := IndexEntry.blocks_nodup (mapError_eq_ok.mp hkeys)
      have hsingle : (self.dm.readBlocks self.blockSize (logs entry.segId) failures
          keys).state.dropGuards.Single := (h.single.readBlocks (h.fresh hnodup)).dropGuards
      dsimp only
      split
      · exact ⟨h.unindexed, hsingle, rfl⟩
      · split
        · exact ⟨h.unindexed, hsingle, rfl⟩
        · exact ⟨h.unindexed, hsingle, rfl⟩

theorem Rests.value (h : self.Rests) : (self.value crc32 logs failures).2.Rests := by
  have hload : (self.loadCurrentFrame crc32 logs failures).2.Rests := h.loadCurrentFrame
  unfold WalIter.value
  split
  · exact h
  · split <;> rename_i heq <;> rw [heq] at hload <;> exact hload

/-! ## Calls -/

/-- The calls of a client. -/
inductive IterCall
  | seekToFirst
  | seek (lsn : ℕ)
  | next
  | value

/-- What a call finds: the memtables, the `.log` files, and which reads fail. -/
structure Surroundings where
  mems : Lsm.MemId → IndexMem
  logs : UInt32 → Bytes
  failures : Disk.BlockKey → Option ReadFailure

/-- A call, with the memtable as it is now. -/
def call (crc32 : Bytes → UInt32) (env : Surroundings) (self : WalIter fuel n) :
    IterCall → Ran IterFault (WalIter fuel n)
  | .seekToFirst => (self.refresh env.mems).seekToFirst
  | .seek lsn => (self.refresh env.mems).seek lsn
  | .next => (self.refresh env.mems).next
  | .value =>
      let r := (self.refresh env.mems).value crc32 env.logs env.failures
      ⟨r.1.map fun _ => (), r.2⟩

/-- The iterator after some calls, of which any may have failed. -/
def afterCalls (crc32 : Bytes → UInt32) (self : WalIter fuel n)
    (calls : List (Surroundings × IterCall)) : WalIter fuel n :=
  calls.foldl (fun iter c => (iter.call crc32 c.1 c.2).state) self

theorem Rests.call (h : self.Rests) (env : Surroundings) (c : IterCall) :
    (self.call crc32 env c).state.Rests := by
  cases c with
  | seekToFirst => exact (h.refresh env.mems).seekToFirst
  | seek lsn => exact (h.refresh env.mems).seek lsn
  | next => exact (h.refresh env.mems).next
  | value => exact (h.refresh env.mems).value

theorem Rests.afterCalls (h : self.Rests) (calls : List (Surroundings × IterCall)) :
    (self.afterCalls crc32 calls).Rests := by
  induction calls generalizing self with
  | nil => exact h
  | cons c calls ih => exact ih (h.call c.1 c.2)

/-- The pins of the cursors on sealed indexes: one for every index level and one for the data
block. -/
def indexPins (self : WalIter fuel n) : ℕ :=
  (self.indexIter.a.iter.map fun segment =>
    segment.inner.indexIter.indexIters.length + segment.inner.dataIter.toList.length).sum

/-- The pins the iterator holds at each call of `read_block` that `value` makes. -/
def readPins (env : Surroundings) (self : WalIter fuel n) : List ℕ :=
  match self.valid, Cursor.value self.indexIter with
  | true, .ok (some entry) =>
      match entry.blocks self.blockSize with
      | .ok keys =>
          (self.dm.readPins self.blockSize (env.logs entry.segId) env.failures keys).map
            (· + self.indexPins)
      | .error _ => []
  | _, _ => []

/-- A call that waits for no one. The iterator has no cursor on a sealed index, so that only
`value` calls `read_block`; whenever it does, the iterator has fewer pins than there are frames. -/
structure Unblocked (crc32 : Bytes → UInt32) (env : Surroundings) (iter : WalIter fuel n)
    (c : IterCall) : Prop where
  unindexed : iter.indexIter.a.iter = []
  pins : c = .value → ∀ pins ∈ (iter.refresh env.mems).readPins env, pins < n
  returns : (iter.call crc32 env c).result ≠ .error .waits

/-- The frame under the iterator lies in no more blocks than the cache has frames. -/
def FrameFits (mems : Lsm.MemId → IndexMem) (self : WalIter fuel n) : Prop :=
  let iter := self.refresh mems
  ∀ entry keys, iter.valid = true → Cursor.value iter.indexIter = .ok (some entry) →
    entry.blocks iter.blockSize = .ok keys → keys.length ≤ n

theorem onIndex_ne_waits {text : String}
    {r : Ran Fault (TwoMergeIter fuel (ConcatIter (SstIndexIter fuel)) MemTableIndexIter)} :
    (self.onIndex text r).result ≠ .error .waits := by
  intro h
  cases hr : r.result with
  | ok => simp [onIndex, hr, Except.mapError] at h
  | error fault =>
      cases fault <;> simp [onIndex, hr, Except.mapError, IterFault.wrap] at h

theorem ne_waits_of_ofRead {α : Type} {x : Outcome α} {fault : IterFault}
    (h : x.mapError IterFault.ofRead = .error fault) : fault ≠ .waits := by
  cases x with
  | ok a => cases h
  | error e =>
      obtain rfl := Except.error.inj h
      cases e <;> simp [IterFault.ofRead]

theorem Rests.indexPins_eq (h : self.Rests) : self.indexPins = 0 := by
  simp [indexPins, h.unindexed]

/-- A frame in few enough blocks is loaded without a wait. -/
theorem Rests.loadCurrentFrame_ne_waits (h : self.Rests)
    (hfits : ∀ entry keys, Cursor.value self.indexIter = .ok (some entry) →
      entry.blocks self.blockSize = .ok keys → keys.length ≤ n) :
    (self.loadCurrentFrame crc32 logs failures).1 ≠ .error .waits := by
  unfold WalIter.loadCurrentFrame
  split
  · rename_i heq
    simpa using ne_waits_of_ofRead heq
  · simp
  · rename_i entry hentry
    split
    · rename_i heq
      simpa using ne_waits_of_ofRead heq
    · rename_i keys hkeys
      have hblocks := mapError_eq_ok.mp hkeys
      have hle := hfits entry keys (mapError_eq_ok.mp hentry) hblocks
      have hread : (self.dm.readBlocks self.blockSize (logs entry.segId) failures keys).result ≠
          .error .waits := by
        refine (h.single.readBlocks_of_le (h.fresh (IndexEntry.blocks_nodup hblocks)) ?_).1
        simpa [h.released] using hle
      dsimp only
      split
      · rename_i heq
        rw [heq] at hread
        simpa using hread
      · split
        · rename_i heq
          simpa using ne_waits_of_ofRead heq
        · dsimp only
          split <;> simp

theorem Rests.value_ne_waits (h : self.Rests)
    (hfits : ∀ entry keys, self.valid = true → Cursor.value self.indexIter = .ok (some entry) →
      entry.blocks self.blockSize = .ok keys → keys.length ≤ n) :
    (self.value crc32 logs failures).1 ≠ .error .waits := by
  unfold WalIter.value
  split
  · simp
  · rename_i hvalid
    have hload : (self.loadCurrentFrame crc32 logs failures).1 ≠ .error .waits :=
      h.loadCurrentFrame_ne_waits fun entry keys => hfits entry keys (by simpa using hvalid)
    split
    · rename_i heq
      rw [heq] at hload
      simpa using hload
    · exact fun hslice => ne_waits_of_ofRead hslice rfl

theorem Rests.readPins_lt (h : self.Rests) (env : Surroundings)
    (hfits : ∀ entry keys, self.valid = true → Cursor.value self.indexIter = .ok (some entry) →
      entry.blocks self.blockSize = .ok keys → keys.length ≤ n) :
    ∀ pins ∈ self.readPins env, pins < n := by
  unfold readPins
  split
  · rename_i entry hvalid hentry
    split
    · rename_i keys hblocks
      have hle := hfits entry keys hvalid hentry hblocks
      rw [h.indexPins_eq]
      simpa using (h.single.readBlocks_of_le (h.fresh (IndexEntry.blocks_nodup hblocks))
        (by simpa [h.released] using hle)).2
    · simp
  · simp

/-- A frame in more blocks: the iterator has pinned the whole cache and reads on. -/
theorem Rests.mem_readPins (h : self.Rests) {env : Surroundings} {entry : IndexEntry}
    {keys : List Disk.BlockKey} (hvalid : self.valid = true)
    (hentry : Cursor.value self.indexIter = .ok (some entry))
    (hblocks : entry.blocks self.blockSize = .ok keys) (hlt : n < keys.length)
    (hfailures : env.failures = fun _ => none) : n ∈ self.readPins env := by
  have hmem : n ∈ self.dm.readPins self.blockSize (env.logs entry.segId) (fun _ => none) keys :=
    (h.single.readBlocks_of_lt (h.fresh (IndexEntry.blocks_nodup hblocks)) (by simp [h.released])
      (by simpa [h.released] using hlt)).2
  simpa [readPins, hvalid, hentry, hblocks, h.indexPins_eq, hfailures] using hmem

theorem Rests.unblocked_iff (h : self.Rests) (mems : Lsm.MemId → IndexMem)
    (logs : UInt32 → Bytes) (c : IterCall) :
    (∀ failures, self.Unblocked crc32 ⟨mems, logs, failures⟩ c) ↔
      (c = .value → self.FrameFits mems) := by
  constructor
  · rintro hunblocked rfl entry keys hvalid hentry hblocks
    by_contra hlt
    have hmem : n ∈ (self.refresh mems).readPins ⟨mems, logs, fun _ => none⟩ :=
      (h.refresh mems).mem_readPins hvalid hentry hblocks (not_le.mp hlt) rfl
    exact lt_irrefl n ((hunblocked fun _ => none).pins rfl n hmem)
  · intro hfits failures
    refine ⟨h.unindexed, fun hc => ?_, ?_⟩
    · exact (h.refresh mems).readPins_lt _ (hfits hc)
    · cases c with
      | seekToFirst | seek | next => exact onIndex_ne_waits
      | value =>
          intro hwaits
          have hne : ((self.refresh mems).value crc32 logs failures).1 ≠ .error .waits :=
            (h.refresh mems).value_ne_waits (hfits rfl)
          have hresult : ((self.refresh mems).value crc32 logs failures).1.map (fun _ => ()) =
              .error .waits := hwaits
          cases hvalue : ((self.refresh mems).value crc32 logs failures).1 with
          | ok payload => simp [hvalue, Except.map] at hresult
          | error fault =>
              rw [hvalue] at hresult hne
              exact hne (by rw [Except.error.inj hresult])

/-! ## Scans -/

section New

variable {blockSize : ℕ} {activeSeg : UInt32} {mems : Lsm.MemId → IndexMem}
  {activeMem : Lsm.MemId} {range : LsnBound × LsnBound}

theorem new_nil_eq :
    (new fuel n blockSize [] activeSeg mems activeMem range : Except IterFault (WalIter fuel n)) =
      match TwoMergeIter.new fuel (ConcatIter.new ([] : List (SstIndexIter fuel)))
        (⟨.new mems activeMem, activeSeg⟩ : MemTableIndexIter) with
      | .ok indexIter => .ok ⟨indexIter, blockSize, .init n blockSize, []⟩
      | .error fault => .error (.wrap "merge iter" fault) := by
  simp only [new, List.mapM_nil, pure_bind]
  cases TwoMergeIter.new fuel (ConcatIter.new ([] : List (SstIndexIter fuel)))
    (⟨.new mems activeMem, activeSeg⟩ : MemTableIndexIter) <;> rfl

theorem rests_of_new_nil
    (hnew : new fuel n blockSize [] activeSeg mems activeMem range = .ok iter) : iter.Rests := by
  rw [new_nil_eq] at hnew
  split at hnew
  · rename_i indexIter hindex
    obtain rfl := Except.ok.inj hnew
    refine ⟨?_, .init n blockSize, rfl⟩
    rw [TwoMergeIter.new, Ran.outcome] at hindex
    split at hindex
    · obtain rfl := Except.ok.inj hindex
      exact place_a (P := fun a : ConcatIter (SstIndexIter fuel) => a.iter = []) .forward _ _
        (concat_seekToFirst_nil rfl)
    · cases hindex
  · cases hnew

theorem new_nil_ne_waits :
    (new fuel n blockSize [] activeSeg mems activeMem range : Except IterFault (WalIter fuel n)) ≠
      .error .waits := by
  rw [new_nil_eq]
  split
  · simp
  · rename_i fault _
    cases fault <;> simp [IterFault.wrap]

end New

end WalIter

variable {ι : Type} {fuel : ℕ} {crc32 : Bytes → UInt32} {cfg : WalConfig}

/-- A scan of a WAL with a sealed segment fails. -/
theorem scan_cases (fuel : ℕ) (crc32 : Bytes → UInt32) (hcfg : cfg.validate = .ok ())
    (w : ScannedWal ι) (snapshot : Snapshot)
    (range : LsnBound × LsnBound) :
    (∃ e, w.scan fuel crc32 cfg snapshot range = .error (.err e)) ∨
      snapshot.sealed = [] ∧ w.scan fuel crc32 cfg snapshot range ≠ .error .waits ∧
        ∀ iter, w.scan fuel crc32 cfg snapshot range = .ok iter → iter.Rests := by
  have hsize : 40 ≤ cfg.blockSize :=
    le_trans (by decide) (WalConfig.validate_eq_ok.mp hcfg).blockSize_ge
  cases hsealed : snapshot.sealed with
  | nil =>
      refine .inr ⟨rfl, ?_, fun iter hscan => ?_⟩
      · rw [ScannedWal.scan, hsealed]
        exact WalIter.new_nil_ne_waits
      · rw [ScannedWal.scan, hsealed] at hscan
        exact WalIter.rests_of_new_nil hscan
  | cons id ids =>
      obtain ⟨e, herror⟩ := fromSealedSegment_eq_error fuel crc32 hsize (UInt32.ofNat id)
        (w.wal.flush.disk id)
      refine .inl ⟨e, ?_⟩
      rw [ScannedWal.scan, hsealed]
      simp only [WalIter.new, List.map_cons, List.mapM_cons, herror]
      rfl

/-- Buffers of two blocks, and a cache of one. -/
def twoBlockConfig : WalConfig := ⟨2048, 1024, 512, 2, 1, false⟩

/-- A payload whose frame does not fit a block. -/
def longPayload : Bytes := List.replicate 497 0

/-- An append and a `sync`. -/
def longRun : List (Label (Fin 1)) :=
  [.call 0 (.append longPayload)] ++ turns 0 521 ++ [.call 0 .sync] ++ turns 0 18 ++
    List.replicate 17 .flush ++ turns 0 2

/-- What a scan finds when it reads the first record. -/
def firstValue (wal : System (Fin 1)) : Except IterFault Bytes :=
  let scanned : ScannedWal (Fin 1) := ⟨wal, [], []⟩
  match scanned.scan 2 (fun _ => 0) twoBlockConfig scanned.clone (.unbounded, .unbounded) with
  | .ok iter => (iter.value (fun _ => 0) wal.logs fun _ => none).1
  | .error fault => .error fault

end Todb.Wal
