import Todb.Model.Wal.Disk

/-! # Soundness of the block cache

The pin count of a frame is the number of its guards and loaders. A frame that is being
loaded has no key and no guard; a frame with a key holds the bytes of that block. -/

namespace Todb.Wal.Disk

open Library

variable {n : ℕ}

/-! ## Cache operations -/

namespace ClockCache

@[simp] theorem modify_frames_self (self : ClockCache n) (idx : Fin n) (f : Frame → Frame) :
    (self.modify idx f).frames idx = f (self.frames idx) := by
  simp [modify]

theorem modify_frames_of_ne (self : ClockCache n) {idx g : Fin n} (f : Frame → Frame)
    (h : g ≠ idx) : (self.modify idx f).frames g = self.frames g := by
  simp [modify, h]

@[simp] theorem modify_table (self : ClockCache n) (idx : Fin n) (f : Frame → Frame) :
    (self.modify idx f).table = self.table := rfl

/-! Only a `pread` changes the bytes of a frame. -/

@[simp] theorem buf_prepareLoad (self : ClockCache n) (idx f : Fin n) :
    ((self.prepareLoad idx).frames f).buf = (self.frames f).buf := by
  by_cases hf : f = idx <;> simp [prepareLoad, modify, hf]

@[simp] theorem buf_commitLoad (self : ClockCache n) (idx f : Fin n) (key : BlockKey) :
    ((self.commitLoad idx key).frames f).buf = (self.frames f).buf := by
  by_cases hf : f = idx <;> simp [commitLoad, modify, hf]

@[simp] theorem buf_unpin (self : ClockCache n) (idx f : Fin n) :
    ((self.unpin idx).frames f).buf = (self.frames f).buf := by
  by_cases hf : f = idx <;> simp [unpin, modify, hf]

theorem buf_of_pinHit {self cache : ClockCache n} {key : BlockKey} {idx : Fin n}
    (h : self.pinHit key = some (idx, cache)) (f : Fin n) :
    (cache.frames f).buf = (self.frames f).buf := by
  obtain ⟨idx', -, heq⟩ := Option.map_eq_some_iff.mp h
  obtain ⟨rfl, rfl⟩ := Prod.mk.inj heq
  by_cases hf : f = idx' <;> simp [modify, hf]

/-- The caches differ in reference bits and the hand only. -/
structure SameButRef (c d : ClockCache n) : Prop where
  table : d.table = c.table
  buf : ∀ f, (d.frames f).buf = (c.frames f).buf
  key : ∀ f, (d.frames f).key = (c.frames f).key
  pinCount : ∀ f, (d.frames f).pinCount = (c.frames f).pinCount

theorem SameButRef.refl (c : ClockCache n) : SameButRef c c :=
  ⟨rfl, fun _ => rfl, fun _ => rfl, fun _ => rfl⟩

theorem SameButRef.trans {c d e : ClockCache n} (h : SameButRef c d) (h' : SameButRef d e) :
    SameButRef c e :=
  ⟨h'.table.trans h.table, fun f => (h'.buf f).trans (h.buf f),
    fun f => (h'.key f).trans (h.key f), fun f => (h'.pinCount f).trans (h.pinCount f)⟩

theorem sameButRef_clear (c : ClockCache n) (idx : Fin n) (hand : ℕ) :
    SameButRef c ({ c with hand }.modify idx fun f => { f with refBit := false }) := by
  have hframe : ∀ g, g = idx ∨ ({ c with hand }.modify idx fun f =>
      { f with refBit := false }).frames g = c.frames g := by
    intro g
    by_cases hg : g = idx
    · exact .inl hg
    · exact .inr (modify_frames_of_ne _ _ hg)
  refine ⟨rfl, fun g => ?_, fun g => ?_, fun g => ?_⟩ <;>
  · rcases hframe g with rfl | hg
    · simp
    · rw [hg]

/-- A sweep stops at an unpinned frame only. -/
theorem sweep_spec (k : ℕ) (c : ClockCache n) :
    SameButRef c (sweep k c).2 ∧ ∀ idx, (sweep k c).1 = some idx → (c.frames idx).pinCount = 0 := by
  induction k generalizing c with
  | zero => exact ⟨.refl c, fun idx h => by cases h⟩
  | succ k ih =>
      rw [sweep]
      split
      · dsimp only
        split
        · rename_i hn hpin
          split
          · obtain ⟨hsame, hvictim⟩ := ih _
            have hclear := sameButRef_clear c ⟨c.hand % n, Nat.mod_lt _ hn⟩ ((c.hand % n + 1) % n)
            exact ⟨hclear.trans hsame, fun idx h => (hclear.pinCount idx) ▸ hvictim idx h⟩
          · refine ⟨⟨rfl, fun _ => rfl, fun _ => rfl, fun _ => rfl⟩, ?_⟩
            rintro idx h
            obtain rfl := Option.some.inj h
            exact hpin
        · obtain ⟨hsame, hvictim⟩ := ih { c with hand := (c.hand % n + 1) % n }
          exact ⟨⟨hsame.table, hsame.buf, hsame.key, hsame.pinCount⟩, hvictim⟩
      · exact ⟨.refl c, fun idx h => by cases h⟩

theorem findVictim_spec (c : ClockCache n) :
    SameButRef c c.findVictim.2 ∧
      ∀ idx, c.findVictim.1 = some idx → (c.frames idx).pinCount = 0 :=
  sweep_spec _ c

/-- The frame `d` places after the hand. -/
def At (c : ClockCache n) (d : ℕ) (f : Fin n) : Prop := (c.hand % n + d) % n = f

theorem At.next {c : ClockCache n} {d : ℕ} {f : Fin n} (h : c.At (d + 1) f) :
    { c with hand := (c.hand % n + 1) % n }.At d f := by
  simp only [At] at h ⊢
  rw [← h, Nat.mod_mod, Nat.mod_add_mod]
  congr 1
  omega

/-- A frame whose reference bit is clear is found when the hand gets there. -/
theorem sweep_of_clear {c : ClockCache n} {f : Fin n} {d k : ℕ} (hat : c.At d f)
    (hpin : (c.frames f).pinCount = 0) (href : (c.frames f).refBit = false) (hk : d < k) :
    (sweep k c).1 ≠ none := by
  have hn : 0 < n := f.pos
  induction k generalizing c d with
  | zero => exact absurd hk (Nat.not_lt_zero d)
  | succ k ih =>
      rw [sweep, dif_pos hn]
      dsimp only
      cases d with
      | zero =>
          have hf : (⟨c.hand % n, Nat.mod_lt _ hn⟩ : Fin n) = f := by
            ext
            simpa [At] using hat
          simp [hf, hpin, href]
      | succ d =>
          have hnext := hat.next
          split
          · split
            · rename_i hset
              have hne : f ≠ ⟨c.hand % n, Nat.mod_lt _ hn⟩ := by
                rintro rfl
                simp [href] at hset
              refine ih (d := d) hnext ?_ ?_ (by omega)
              · simpa [modify_frames_of_ne _ _ hne] using hpin
              · simpa [modify_frames_of_ne _ _ hne] using href
            · simp
          · exact ih hnext hpin href (by omega)

/-- After the hand has passed a frame, it comes back in `n - 1` places. -/
theorem at_last {c : ClockCache n} {f : Fin n} (hf : c.hand % n = f) :
    { c with hand := (c.hand % n + 1) % n }.At (n - 1) f := by
  have hn : 0 < n := f.pos
  simp only [At]
  rw [Nat.mod_mod, Nat.mod_add_mod, show c.hand % n + 1 + (n - 1) = c.hand % n + n by omega,
    Nat.add_mod_right, Nat.mod_mod, hf]

/-- An unpinned frame is found within two rounds: the first clears its reference bit. -/
theorem sweep_of_unpinned {c : ClockCache n} {f : Fin n} {d k : ℕ} (hat : c.At d f)
    (hpin : (c.frames f).pinCount = 0) (hk : d + n < k) : (sweep k c).1 ≠ none := by
  have hn : 0 < n := f.pos
  induction k generalizing c d with
  | zero => exact absurd hk (Nat.not_lt_zero _)
  | succ k ih =>
      rw [sweep, dif_pos hn]
      dsimp only
      by_cases hf : (⟨c.hand % n, Nat.mod_lt _ hn⟩ : Fin n) = f
      · rw [hf, if_pos hpin]
        split
        · refine sweep_of_clear (f := f) (d := n - 1) ?_ (by simpa using hpin) (by simp) (by omega)
          exact at_last (c := c) (congrArg Fin.val hf)
        · simp
      · cases d with
        | zero => exact absurd (Fin.ext (by simpa [At] using hat)) hf
        | succ d =>
            have hnext := hat.next
            split
            · split
              · refine ih (d := d) hnext ?_ (by omega)
                simpa [modify_frames_of_ne _ _ (Ne.symm hf)] using hpin
              · simp
            · exact ih hnext hpin (by omega)

/-- No two frames are at one distance below `n`, and no frame at two. -/
theorem At.dist_eq {c : ClockCache n} {d e : ℕ} {f : Fin n} (hd : c.At d f) (he : c.At e f)
    (hdn : d < n) (hen : e < n) : d = e := by
  have hmod : c.hand % n + d ≡ c.hand % n + e [MOD n] := hd.trans he.symm
  exact (Nat.ModEq.add_left_cancel' _ hmod).eq_of_lt_of_lt hdn hen

theorem At.prev {c : ClockCache n} {d : ℕ} {f : Fin n}
    (h : { c with hand := (c.hand % n + 1) % n }.At d f) : c.At (d + 1) f := by
  simp only [At] at h ⊢
  rw [← h, Nat.mod_mod, Nat.mod_add_mod (c.hand % n + 1) n d]
  congr 1
  omega

/-- Within the first round a sweep stops at a frame whose reference bit was clear before. -/
theorem sweep_first_round {c : ClockCache n} {f : Fin n} {d k : ℕ} (hat : c.At d f)
    (hpin : (c.frames f).pinCount = 0) (href : (c.frames f).refBit = false) (hdn : d < n)
    (hk : d < k) :
    ∃ i e, (sweep k c).1 = some i ∧ c.At e i ∧ e ≤ d ∧ (c.frames i).refBit = false := by
  have hn : 0 < n := f.pos
  induction k generalizing c d with
  | zero => exact absurd hk (Nat.not_lt_zero d)
  | succ k ih =>
      let i₀ : Fin n := ⟨c.hand % n, Nat.mod_lt _ hn⟩
      have hhere : c.At 0 i₀ := Nat.mod_mod _ _
      by_cases hstop : (c.frames i₀).pinCount = 0 ∧ (c.frames i₀).refBit = false
      · refine ⟨i₀, 0, ?_, hhere, Nat.zero_le d, hstop.2⟩
        rw [sweep, dif_pos hn]
        simp only [i₀] at hstop
        simp [hstop, i₀]
      · obtain ⟨d, rfl⟩ : ∃ m, d = m + 1 := by
          refine Nat.exists_eq_succ_of_ne_zero ?_
          rintro rfl
          obtain rfl : i₀ = f := Fin.ext ((Nat.mod_mod _ _).symm.trans hat)
          exact hstop ⟨hpin, href⟩
        -- The frame that is passed over comes back only after the round.
        have hahead : ∀ {i : Fin n} {e : ℕ}, e ≤ d →
            { c with hand := (c.hand % n + 1) % n }.At e i → i ≠ i₀ := by
          rintro i e he hati rfl
          have := hhere.dist_eq hati.prev hn (by omega)
          omega
        have hfne : f ≠ i₀ := hahead le_rfl hat.next
        rw [sweep, dif_pos hn]
        dsimp only
        split
        · split
          · have hframe : ∀ {i : Fin n}, i ≠ i₀ →
                (({ c with hand := (c.hand % n + 1) % n }.modify i₀ fun g =>
                  { g with refBit := false }).frames i) = c.frames i :=
              fun hi => modify_frames_of_ne _ _ hi
            obtain ⟨i, e, hi, hati, he, hclear⟩ := ih (d := d)
              (c := { c with hand := (c.hand % n + 1) % n }.modify i₀ fun g =>
                { g with refBit := false })
              hat.next ((hframe hfne).symm ▸ hpin) ((hframe hfne).symm ▸ href) (by omega) (by omega)
            refine ⟨i, e + 1, hi, At.prev hati, by omega, ?_⟩
            rwa [hframe (hahead he hati)] at hclear
          · rename_i hpin₀ href₀
            exact absurd ⟨hpin₀, by simpa using href₀⟩ hstop
        · obtain ⟨i, e, hi, hati, he, hclear⟩ := ih hat.next hpin href (by omega) (by omega)
          exact ⟨i, e + 1, hi, hati.prev, by omega, hclear⟩

theorem sweep_hand_lt {k : ℕ} {c : ClockCache n} (hn : 0 < n) (h : c.hand < n ∨ 0 < k) :
    (sweep k c).2.hand < n := by
  induction k generalizing c with
  | zero => exact h.resolve_right (lt_irrefl 0)
  | succ k ih =>
      have hnext : (c.hand % n + 1) % n < n := Nat.mod_lt _ hn
      rw [sweep, dif_pos hn]
      dsimp only
      split
      · split
        · exact ih (.inl hnext)
        · exact hnext
      · exact ih (.inl hnext)

theorem exists_at (c : ClockCache n) (f : Fin n) : ∃ d < n, c.At d f := by
  have hn : 0 < n := f.pos
  have hlt : c.hand % n < n := Nat.mod_lt _ hn
  refine ⟨(f + n - c.hand % n) % n, Nat.mod_lt _ hn, ?_⟩
  simp only [At]
  rw [Nat.add_mod_mod, show c.hand % n + (f + n - c.hand % n) = f + n by omega, Nat.add_mod_right,
    Nat.mod_eq_of_lt f.isLt]

theorem findVictim_ne_none {c : ClockCache n} {f : Fin n} (hpin : (c.frames f).pinCount = 0) :
    c.findVictim.1 ≠ none := by
  obtain ⟨d, hd, hat⟩ := c.exists_at f
  exact sweep_of_unpinned hat hpin (by omega)

/-- A victim with its reference bit set is taken only if no unpinned frame had it clear. -/
theorem refBit_of_findVictim {c : ClockCache n} {i f : Fin n} (hi : c.findVictim.1 = some i)
    (hset : (c.frames i).refBit = true) (hpin : (c.frames f).pinCount = 0) :
    (c.frames f).refBit = true := by
  by_contra hclear
  obtain ⟨d, hd, hat⟩ := c.exists_at f
  obtain ⟨i', -, hi', -, -, hclear'⟩ :=
    sweep_first_round (k := 2 * n) hat hpin (by simpa using hclear) hd (by omega)
  obtain rfl := Option.some.inj (hi.symm.trans hi')
  simp [hset] at hclear'

/-- Second-chance eviction: two rounds find a victim if there is an unpinned frame, one with a
set reference bit only for want of others, and change nothing but reference bits and the hand. -/
theorem clock_victim_selection (c : ClockCache n) :
    ((∃ i, c.findVictim.1 = some i ∧ (c.frames i).pinCount = 0) ↔
        ∃ f, (c.frames f).pinCount = 0) ∧
      (∀ i, c.findVictim.1 = some i → (c.frames i).pinCount = 0) ∧
      (∀ i, c.findVictim.1 = some i → (c.frames i).refBit = true →
        ∀ f, (c.frames f).pinCount = 0 → (c.frames f).refBit = true) ∧
      (∀ f, (c.findVictim.2.frames f).pinCount = (c.frames f).pinCount ∧
        (c.findVictim.2.frames f).key = (c.frames f).key) ∧
      c.findVictim.2.table = c.table ∧ (0 < n → c.findVictim.2.hand < n) := by
  obtain ⟨hsame, hunpinned⟩ := findVictim_spec c
  refine ⟨⟨fun ⟨i, _, hi⟩ => ⟨i, hi⟩, fun ⟨f, hf⟩ => ?_⟩, hunpinned,
    fun i hi hset f hf => refBit_of_findVictim hi hset hf,
    fun f => ⟨hsame.pinCount f, hsame.key f⟩, hsame.table,
    fun hn => sweep_hand_lt hn (.inr (by omega))⟩
  obtain ⟨i, hi⟩ := Option.ne_none_iff_exists'.mp (findVictim_ne_none hf)
  exact ⟨i, hi, hunpinned i hi⟩

end ClockCache

/-! ## The invariant -/

namespace Call

/-- The frame a call has pinned for its load. -/
def frame? : Call n → Option (Fin n)
  | loading _ idx => some idx
  | loaded _ idx _ => some idx
  | _ => none

@[simp] theorem frame?_enter (key : BlockKey) : (enter key : Call n).frame? = none := rfl

@[simp] theorem frame?_waiting (key : BlockKey) : (waiting key : Call n).frame? = none := rfl

@[simp] theorem frame?_loading (key : BlockKey) (idx : Fin n) :
    (loading key idx).frame? = some idx := rfl

@[simp] theorem frame?_loaded (key : BlockKey) (idx : Fin n) (ok : Bool) :
    (loaded key idx ok).frame? = some idx := rfl

def key : Call n → BlockKey
  | enter key => key
  | waiting key => key
  | loading key _ => key
  | loaded key _ _ => key

end Call

section Files

variable (blockSize : ℕ) (files : UInt32 → Bytes)

/-- The bytes of a block. -/
def content (key : BlockKey) : Bytes :=
  ((files key.segId).drop (key.blockIdx.toNat * blockSize)).take blockSize

/-- The block lies within its file. -/
def Whole (key : BlockKey) : Prop :=
  key.blockIdx.toNat * blockSize + blockSize ≤ (files key.segId).length

instance (key : BlockKey) : Decidable (Whole blockSize files key) :=
  inferInstanceAs (Decidable (_ ≤ _))

end Files

namespace Pool

/-- The number of guards on a frame. -/
def guardsOn (guards : List (PinGuard n)) (f : Fin n) : ℕ := guards.countP (·.idx = f)

/-- The number of calls that are loading a frame. -/
def loadersOn (calls : List (Call n)) (f : Fin n) : ℕ := calls.countP (·.frame? = some f)

@[simp] theorem guardsOn_cons (guard : PinGuard n) (guards : List (PinGuard n)) (f : Fin n) :
    guardsOn (guard :: guards) f = guardsOn guards f + if guard.idx = f then 1 else 0 := by
  simp [guardsOn, List.countP_cons]

@[simp] theorem loadersOn_cons (call : Call n) (calls : List (Call n)) (f : Fin n) :
    loadersOn (call :: calls) f =
      loadersOn calls f + if call.frame? = some f then 1 else 0 := by
  simp [loadersOn, List.countP_cons]

variable (blockSize : ℕ) (files : UInt32 → Bytes) in
structure Kept (pool : Pool n) : Prop where
  size : ∀ f, (pool.cache.frames f).buf.length = blockSize
  pins : ∀ f, (pool.cache.frames f).pinCount = guardsOn pool.guards f + loadersOn pool.calls f
  fits : ∀ f, (pool.cache.frames f).pinCount < 2 ^ 32
  table : ∀ key f, pool.cache.table key = some f → (pool.cache.frames f).key = some key
  bytes : ∀ f key, (pool.cache.frames f).key = some key →
    (pool.cache.frames f).buf = content blockSize files key
  guardKey : ∀ guard ∈ pool.guards, (pool.cache.frames guard.idx).key = some guard.key
  loader : ∀ f, 0 < loadersOn pool.calls f →
    loadersOn pool.calls f = 1 ∧ (pool.cache.frames f).key = none
  loaded : ∀ key f, .loaded key f true ∈ pool.calls →
    (pool.cache.frames f).buf = content blockSize files key
  whole : ∀ call ∈ pool.calls, Whole blockSize files call.key

namespace Kept

variable {blockSize : ℕ} {files : UInt32 → Bytes} {cache cache' : ClockCache n}
  {call : Call n} {calls calls' : List (Call n)} {guards guards' : List (PinGuard n)}
  {key : BlockKey} {idx : Fin n}

theorem init (n blockSize : ℕ) (files : UInt32 → Bytes) :
    (Pool.init n blockSize).Kept blockSize files where
  size f := by simp [Pool.init, ClockCache.new]
  pins f := by simp [Pool.init, ClockCache.new, guardsOn, loadersOn]
  fits f := by simp [Pool.init, ClockCache.new]
  table key f h := by cases h
  bytes f key h := by cases h
  guardKey guard h := by cases h
  loader f h := by simp [Pool.init, loadersOn] at h
  loaded key f h := by cases h
  whole call h := by cases h

/-- The order of the calls and of the guards does not matter. -/
theorem of_perm (h : (⟨cache, calls, guards⟩ : Pool n).Kept blockSize files)
    (hcalls : calls'.Perm calls) (hguards : guards'.Perm guards) :
    (⟨cache, calls', guards'⟩ : Pool n).Kept blockSize files where
  size := h.size
  pins f := by
    simpa [guardsOn, loadersOn, hcalls.countP_eq, hguards.countP_eq] using h.pins f
  fits := h.fits
  table := h.table
  bytes := h.bytes
  guardKey guard hguard := h.guardKey guard (hguards.mem_iff.mp hguard)
  loader f hf := by
    simpa [loadersOn, hcalls.countP_eq] using
      h.loader f (by simpa [loadersOn, hcalls.countP_eq] using hf)
  loaded key f hloaded := h.loaded key f (hcalls.mem_iff.mp hloaded)
  whole call hcall := h.whole call (hcalls.mem_iff.mp hcall)

/-- A change of reference bits. -/
theorem sameButRef (h : (⟨cache, calls, guards⟩ : Pool n).Kept blockSize files)
    (hsame : ClockCache.SameButRef cache cache') :
    (⟨cache', calls, guards⟩ : Pool n).Kept blockSize files where
  size f := (congrArg List.length (hsame.buf f)).trans (h.size f)
  pins f := (hsame.pinCount f).trans (h.pins f)
  fits f := hsame.pinCount f ▸ h.fits f
  table key f hkey := (hsame.key f).trans (h.table key f (hsame.table ▸ hkey))
  bytes f key hkey := (hsame.buf f).trans (h.bytes f key (hsame.key f ▸ hkey))
  guardKey guard hguard := (hsame.key _).trans (h.guardKey guard hguard)
  loader f hf := ⟨(h.loader f hf).1, (hsame.key f).trans (h.loader f hf).2⟩
  loaded key f hloaded := (hsame.buf f).trans (h.loaded key f hloaded)
  whole := h.whole

/-- A call that has no frame comes, changes its state or goes. -/
theorem replace_calls (h : (⟨cache, calls, guards⟩ : Pool n).Kept blockSize files)
    (hcount : ∀ f, calls'.countP (·.frame? = some f) = calls.countP (·.frame? = some f))
    (hmem : ∀ call ∈ calls', call ∈ calls ∨ call.frame? = none ∧ Whole blockSize files call.key) :
    (⟨cache, calls', guards⟩ : Pool n).Kept blockSize files where
  size := h.size
  pins f := by simpa [guardsOn, loadersOn, hcount] using h.pins f
  fits := h.fits
  table := h.table
  bytes := h.bytes
  guardKey := h.guardKey
  loader f hf := by
    simpa [loadersOn, hcount] using h.loader f (by simpa [loadersOn, hcount] using hf)
  loaded key f hloaded := by
    rcases hmem _ hloaded with hold | ⟨hnone, -⟩
    · exact h.loaded key f hold
    · cases hnone
  whole call hcall := by
    rcases hmem _ hcall with hold | ⟨-, hwhole⟩
    · exact h.whole call hold
    · exact hwhole

/-- What has to be shown when one frame changes. -/
structure Change (blockSize : ℕ) (files : UInt32 → Bytes) (s s' : Pool n) (idx : Fin n) :
    Prop where
  frames : ∀ f, f ≠ idx → s'.cache.frames f = s.cache.frames f
  guardCount : ∀ f, f ≠ idx → guardsOn s'.guards f = guardsOn s.guards f
  loaderCount : ∀ f, f ≠ idx → loadersOn s'.calls f = loadersOn s.calls f
  size : (s'.cache.frames idx).buf.length = blockSize
  pins : (s'.cache.frames idx).pinCount = guardsOn s'.guards idx + loadersOn s'.calls idx
  fits : (s'.cache.frames idx).pinCount < 2 ^ 32
  table : ∀ key f, s'.cache.table key = some f →
    f ≠ idx ∧ s.cache.table key = some f ∨ f = idx ∧ (s'.cache.frames idx).key = some key
  bytes : ∀ key, (s'.cache.frames idx).key = some key →
    (s'.cache.frames idx).buf = content blockSize files key
  guards : ∀ guard ∈ s'.guards,
    guard.idx ≠ idx ∧ guard ∈ s.guards ∨
      guard.idx = idx ∧ (s'.cache.frames idx).key = some guard.key
  loader : 0 < loadersOn s'.calls idx → loadersOn s'.calls idx = 1 ∧ (s'.cache.frames idx).key = none
  loaded : ∀ key f, .loaded key f true ∈ s'.calls →
    f ≠ idx ∧ .loaded key f true ∈ s.calls ∨
      f = idx ∧ (s'.cache.frames idx).buf = content blockSize files key
  whole : ∀ call ∈ s'.calls, Whole blockSize files call.key

theorem change {s s' : Pool n} (idx : Fin n) (h : s.Kept blockSize files)
    (hchange : Change blockSize files s s' idx) : s'.Kept blockSize files where
  size f := by
    by_cases hf : f = idx
    · exact hf ▸ hchange.size
    · exact hchange.frames f hf ▸ h.size f
  pins f := by
    by_cases hf : f = idx
    · exact hf ▸ hchange.pins
    · rw [hchange.frames f hf, hchange.guardCount f hf, hchange.loaderCount f hf, h.pins f]
  fits f := by
    by_cases hf : f = idx
    · exact hf ▸ hchange.fits
    · exact hchange.frames f hf ▸ h.fits f
  table key f hkey := by
    rcases hchange.table key f hkey with ⟨hf, hold⟩ | ⟨rfl, hnew⟩
    · exact hchange.frames f hf ▸ h.table key f hold
    · exact hnew
  bytes f key hkey := by
    by_cases hf : f = idx
    · exact hf ▸ hchange.bytes key (hf ▸ hkey)
    · rw [hchange.frames f hf] at hkey ⊢
      exact h.bytes f key hkey
  guardKey guard hguard := by
    rcases hchange.guards guard hguard with ⟨hf, hold⟩ | ⟨hf, hnew⟩
    · exact hchange.frames _ hf ▸ h.guardKey guard hold
    · exact hf ▸ hnew
  loader f hload := by
    by_cases hf : f = idx
    · exact hf ▸ hchange.loader (hf ▸ hload)
    · rw [hchange.frames f hf, hchange.loaderCount f hf] at *
      exact h.loader f hload
  loaded key f hloaded := by
    rcases hchange.loaded key f hloaded with ⟨hf, hold⟩ | ⟨rfl, hnew⟩
    · exact hchange.frames f hf ▸ h.loaded key f hold
    · exact hnew
  whole := hchange.whole

/-- A frame with a key is not being loaded. -/
theorem loadersOn_of_key {s : Pool n} (h : s.Kept blockSize files)
    (hkey : (s.cache.frames idx).key = some key) : loadersOn s.calls idx = 0 := by
  by_contra hne
  have := (h.loader idx (Nat.pos_of_ne_zero hne)).2
  rw [hkey] at this
  cases this

/-- A frame that is being loaded has no guard. -/
theorem guardsOn_of_loader {s : Pool n} (h : s.Kept blockSize files)
    (hload : 0 < loadersOn s.calls idx) : guardsOn s.guards idx = 0 := by
  refine List.countP_eq_zero.mpr fun guard hguard heq => ?_
  have hkey := h.guardKey guard hguard
  rw [of_decide_eq_true heq, (h.loader idx hload).2] at hkey
  cases hkey

theorem not_loaded (hnone : loadersOn calls idx = 0) {ok : Bool} :
    .loaded key idx ok ∉ calls :=
  fun hmem => List.countP_eq_zero.mp hnone _ hmem (by simp)

theorem not_guard (hnone : guardsOn guards idx = 0) {guard : PinGuard n}
    (hguard : guard ∈ guards) : guard.idx ≠ idx :=
  fun heq => List.countP_eq_zero.mp hnone _ hguard (by simp [heq])

/-- A hit pins the frame and returns a guard on it. -/
theorem hit (h : (⟨cache, call :: calls, guards⟩ : Pool n).Kept blockSize files)
    (hcall : call.frame? = none) (hfits : (cache.frames idx).pinCount + 1 < 2 ^ 32)
    (hkey : cache.table key = some idx) :
    (⟨cache.modify idx fun f => { f with pinCount := (f.pinCount + 1) % 2 ^ 32, refBit := true },
      calls, ⟨idx, key⟩ :: guards⟩ : Pool n).Kept blockSize files := by
  have hframe : (cache.frames idx).key = some key := h.table key idx hkey
  have hnone : loadersOn calls idx = 0 := by simpa [hcall] using h.loadersOn_of_key hframe
  have hpins : (cache.frames idx).pinCount = guardsOn guards idx + loadersOn calls idx := by
    simpa [hcall] using h.pins idx
  refine h.change idx ⟨fun f hf => by simp [ClockCache.modify, hf], fun f hf => ?_, fun f hf => ?_,
    ?_, ?_, ?_, fun k f hk => ?_, fun k hk => ?_, fun guard hguard => ?_,
    fun hload => absurd hnone hload.ne', fun k f hk => .inl ⟨?_, List.mem_cons_of_mem _ hk⟩,
    fun c hc => h.whole c (List.mem_cons_of_mem _ hc)⟩
  · simp [hf.symm]
  · simp [hcall]
  · simpa using h.size idx
  · simp [hpins]
    omega
  · simpa using Nat.mod_lt _ (Nat.two_pow_pos 32)
  · by_cases hf : f = idx
    · exact .inr ⟨hf, by simpa [hf] using h.table k f hk⟩
    · exact .inl ⟨hf, hk⟩
  · simpa using h.bytes idx k (by simpa using hk)
  · by_cases hg : guard.idx = idx
    · refine .inr ⟨hg, ?_⟩
      rcases List.mem_cons.mp hguard with rfl | hold
      · simpa using hframe
      · simpa [hg] using h.guardKey guard hold
    · rcases List.mem_cons.mp hguard with rfl | hold
      · exact absurd rfl hg
      · exact .inl ⟨hg, hold⟩
  · rintro rfl
    exact not_loaded hnone hk

/-- Evicting an unpinned frame: its mapping goes, and the loader has the only pin. -/
theorem prepare (h : (⟨cache, call :: calls, guards⟩ : Pool n).Kept blockSize files)
    (hcall : call.frame? = none) (hfree : (cache.frames idx).pinCount = 0) :
    (⟨cache.prepareLoad idx, .loading call.key idx :: calls, guards⟩ : Pool n).Kept
      blockSize files := by
  have hpins : (cache.frames idx).pinCount = guardsOn guards idx + loadersOn calls idx := by
    simpa [hcall] using h.pins idx
  have hguards : guardsOn guards idx = 0 := by omega
  have hnone : loadersOn calls idx = 0 := by omega
  have hframe : (cache.prepareLoad idx).frames idx =
      ⟨(cache.frames idx).buf, none, false, 1⟩ := by
    simp [ClockCache.prepareLoad, ClockCache.modify]
  have htable : ∀ k f, (cache.prepareLoad idx).table k = some f →
      f ≠ idx ∧ cache.table k = some f := by
    intro k f hk
    have hold : cache.table k = some f ∧ (cache.frames idx).key ≠ some k := by
      simp only [ClockCache.prepareLoad] at hk
      split at hk
      · rename_i old hkey
        by_cases hold : k = old
        · simp [hold] at hk
        · exact ⟨by simpa [hold] using hk, by simpa [hkey] using Ne.symm hold⟩
      · rename_i hkey
        exact ⟨hk, by simp [hkey]⟩
    refine ⟨?_, hold.1⟩
    rintro rfl
    exact hold.2 (h.table k f hold.1)
  refine h.change idx ⟨fun f hf => by simp [ClockCache.prepareLoad, ClockCache.modify, hf],
    fun f hf => rfl, fun f hf => ?_, ?_, ?_, ?_, fun k f hk => .inl (htable k f hk), fun k hk => ?_,
    fun guard hguard => .inl ⟨not_guard hguards hguard, hguard⟩, fun hload => ?_,
    fun k f hk => ?_, fun c hc => ?_⟩
  · simp [hcall, Ne.symm hf]
  · simpa [hframe] using h.size idx
  · simp [hframe, hguards, hnone]
  · simp [hframe]
  · simp [hframe] at hk
  · exact ⟨by simp [hnone], by simp [hframe]⟩
  · rcases List.mem_cons.mp hk with hnew | hold
    · cases hnew
    · refine .inl ⟨?_, List.mem_cons_of_mem _ hold⟩
      rintro rfl
      exact not_loaded hnone hold
  · rcases List.mem_cons.mp hc with rfl | hold
    · exact h.whole call (by simp)
    · exact h.whole c (List.mem_cons_of_mem _ hold)

/-- What is known of the frame that a call is loading. -/
theorem of_loader (h : (⟨cache, call :: calls, guards⟩ : Pool n).Kept blockSize files)
    (hcall : call.frame? = some idx) :
    loadersOn calls idx = 0 ∧ guardsOn guards idx = 0 ∧ (cache.frames idx).key = none ∧
      (cache.frames idx).pinCount = 1 := by
  have hpos : 0 < loadersOn (call :: calls) idx := by simp [hcall]
  have hone := (h.loader idx hpos).1
  have hguards := h.guardsOn_of_loader hpos
  have hpins := h.pins idx
  simp only [loadersOn_cons, hcall, if_true] at hone hpins
  exact ⟨by omega, hguards, (h.loader idx hpos).2, by rw [hpins, hguards]; omega⟩

/-- The loader fills its frame. -/
theorem pread {buf : Bytes} {ok : Bool}
    (h : (⟨cache, .loading key idx :: calls, guards⟩ : Pool n).Kept blockSize files)
    (hsize : buf.length = blockSize) (hok : ok = true → buf = content blockSize files key) :
    (⟨cache.modify idx fun f => { f with buf }, .loaded key idx ok :: calls, guards⟩ : Pool n).Kept
      blockSize files := by
  obtain ⟨hnone, hguards, hkey, hpin⟩ := h.of_loader rfl
  refine h.change idx ⟨fun f hf => by simp [ClockCache.modify, hf], fun f hf => rfl,
    fun f hf => by simp, by simpa using hsize, ?_, ?_, fun k f hk => .inl ⟨?_, hk⟩, fun k hk => ?_,
    fun guard hguard => .inl ⟨not_guard hguards hguard, hguard⟩, fun hload => ?_,
    fun k f hk => ?_, fun c hc => ?_⟩
  · simp [hpin, hguards, hnone]
  · simp [hpin]
  · rintro rfl
    have := h.table k f hk
    simp [hkey] at this
  · simp [hkey] at hk
  · simp [hnone, hkey]
  · rcases List.mem_cons.mp hk with hnew | hold
    · simp only [Call.loaded.injEq] at hnew
      obtain ⟨rfl, rfl, rfl⟩ := hnew
      exact .inr ⟨rfl, by simpa using hok rfl⟩
    · refine .inl ⟨?_, List.mem_cons_of_mem _ hold⟩
      rintro rfl
      exact not_loaded hnone hold
  · rcases List.mem_cons.mp hc with rfl | hold
    · exact h.whole (.loading key idx) (by simp)
    · exact h.whole c (List.mem_cons_of_mem _ hold)

/-- A successful load is published; the loader's pin becomes the guard's. -/
theorem commit (h : (⟨cache, .loaded key idx true :: calls, guards⟩ : Pool n).Kept blockSize files) :
    (⟨cache.commitLoad idx key, calls, ⟨idx, key⟩ :: guards⟩ : Pool n).Kept blockSize files := by
  obtain ⟨hnone, hguards, hkey, hpin⟩ := h.of_loader rfl
  have hbytes := h.loaded key idx (by simp)
  have hframe : (cache.commitLoad idx key).frames idx =
      ⟨(cache.frames idx).buf, some key, true, 1⟩ := by
    simp [ClockCache.commitLoad, ClockCache.modify, hpin]
  refine h.change idx ⟨fun f hf => by simp [ClockCache.commitLoad, ClockCache.modify, hf],
    fun f hf => by simp [hf.symm], fun f hf => by simp [hf.symm], ?_, ?_, ?_, fun k f hk => ?_,
    fun k hk => ?_, fun guard hguard => ?_, fun hload => absurd hnone hload.ne', fun k f hk => ?_,
    fun c hc => h.whole c (List.mem_cons_of_mem _ hc)⟩
  · simpa [hframe] using h.size idx
  · simp [hframe, hguards, hnone]
  · simp [hframe]
  · by_cases hk' : k = key
    · refine .inr ⟨?_, by simp [hframe, hk']⟩
      simpa [ClockCache.commitLoad, hk', eq_comm] using hk
    · have hold : cache.table k = some f := by simpa [ClockCache.commitLoad, hk'] using hk
      refine .inl ⟨?_, hold⟩
      rintro rfl
      have := h.table k f hold
      simp [hkey] at this
  · rw [show (Pool.mk (cache.commitLoad idx key) calls (⟨idx, key⟩ :: guards)).cache.frames idx =
      _ from hframe] at hk ⊢
    obtain rfl := Option.some.inj hk
    exact hbytes
  · rcases List.mem_cons.mp hguard with rfl | hold
    · exact .inr ⟨rfl, by simp [hframe]⟩
    · exact .inl ⟨not_guard hguards hold, hold⟩
  · refine .inl ⟨?_, List.mem_cons_of_mem _ hk⟩
    rintro rfl
    exact not_loaded hnone hk

/-- Releasing a pin of a frame that is not being loaded afterwards. -/
theorem unpin (h : (⟨cache, calls, guards⟩ : Pool n).Kept blockSize files)
    (hmem : ∀ guard ∈ guards', guard ∈ guards) (hcalls : ∀ call ∈ calls', call ∈ calls)
    (hguards : ∀ f, f ≠ idx → guardsOn guards' f = guardsOn guards f)
    (hloaders : ∀ f, f ≠ idx → loadersOn calls' f = loadersOn calls f)
    (hnone : loadersOn calls' idx = 0)
    (hcount : guardsOn guards' idx + 1 = guardsOn guards idx + loadersOn calls idx) :
    (⟨cache.unpin idx, calls', guards'⟩ : Pool n).Kept blockSize files := by
  have hpins : (cache.frames idx).pinCount = guardsOn guards' idx + 1 := by
    rw [hcount]
    exact h.pins idx
  have hfits : (cache.frames idx).pinCount < 2 ^ 32 := h.fits idx
  have hframe : (cache.unpin idx).frames idx =
      { cache.frames idx with pinCount := guardsOn guards' idx } := by
    simp only [ClockCache.unpin, ClockCache.modify_frames_self, Frame.mk.injEq, true_and]
    omega
  refine h.change idx ⟨fun f hf => by simp [ClockCache.unpin, ClockCache.modify, hf], hguards,
    hloaders, ?_, ?_, ?_, fun k f hk => ?_, fun k hk => ?_, fun guard hguard => ?_,
    fun hload => absurd hnone hload.ne', fun k f hk => .inl ⟨?_, hcalls _ hk⟩,
    fun c hc => h.whole c (hcalls c hc)⟩
  · simpa [hframe] using h.size idx
  · simp [hframe, hnone]
  · simp only [hframe]
    omega
  · by_cases hf : f = idx
    · exact .inr ⟨hf, by simpa [hframe, hf] using h.table k f hk⟩
    · exact .inl ⟨hf, hk⟩
  · simp only [hframe] at hk ⊢
    exact h.bytes idx k hk
  · by_cases hg : guard.idx = idx
    · exact .inr ⟨hg, by simpa [hframe, hg] using h.guardKey guard (hmem guard hguard)⟩
    · exact .inl ⟨hg, hmem guard hguard⟩
  · rintro rfl
    exact not_loaded hnone hk

end Kept

/-! ## Runs -/

section Runs

variable (blockSize : ℕ) (files : UInt32 → Bytes)

/-- Only whole blocks are read. -/
def Reads : Label → Prop
  | .call key => Whole blockSize files key
  | _ => True

/-- No frame has all the pins its count can hold when a call looks for its block. -/
def Unsaturated (s : Pool n) : Label → Prop
  | .lock _ => ∀ f, (s.cache.frames f).pinCount + 1 < 2 ^ 32
  | _ => True

instance (l : Label) : Decidable (Reads blockSize files l) := by
  cases l <;> unfold Reads <;> infer_instance

instance (s : Pool n) (l : Label) : Decidable (Unsaturated s l) := by
  cases l <;> unfold Unsaturated <;> infer_instance

variable {blockSize files} {s s' : Pool n} {l : Label}

theorem perm_of_getElem? {α : Type*} {as : List α} {i : ℕ} {a : α} (h : as[i]? = some a) :
    as.Perm (a :: as.eraseIdx i) := by
  obtain ⟨hi, rfl⟩ := List.getElem?_eq_some_iff.mp h
  exact (List.getElem_cons_eraseIdx_perm hi).symm

theorem set_perm_of_getElem? {α : Type*} {as : List α} {i : ℕ} {a : α} (h : as[i]? = some a)
    (b : α) : (as.set i b).Perm (b :: as.eraseIdx i) :=
  List.set_perm_cons_eraseIdx (List.getElem?_eq_some_iff.mp h).1 b

theorem Kept.lock {i : ℕ} {call : Call n} (h : s.Kept blockSize files)
    (hfits : ∀ f, (s.cache.frames f).pinCount + 1 < 2 ^ 32) (hi : s.calls[i]? = some call)
    (hcall : call.frame? = none) : (s.lock i call.key).Kept blockSize files := by
  obtain ⟨cache, calls, guards⟩ := s
  have hfirst := h.of_perm (perm_of_getElem? hi).symm (.refl _)
  rw [Pool.lock]
  split
  · rename_i idx cache' hhit
    obtain ⟨idx', hkey, heq⟩ := Option.map_eq_some_iff.mp hhit
    obtain ⟨rfl, rfl⟩ := Prod.mk.inj heq
    exact hfirst.hit hcall (hfits _) hkey
  · split
    · rename_i idx cache' hvictim
      obtain ⟨hsame, hfree⟩ := cache.findVictim_spec
      rw [show cache.findVictim = _ from hvictim] at hsame hfree
      have hpin : (cache'.frames idx).pinCount = 0 :=
        (hsame.pinCount idx).trans (hfree idx rfl)
      exact ((hfirst.sameButRef hsame).prepare hcall hpin).of_perm
        (set_perm_of_getElem? hi _) (.refl _)
    · rename_i cache' hvictim
      obtain ⟨hsame, -⟩ := cache.findVictim_spec
      rw [show cache.findVictim = _ from hvictim] at hsame
      refine ((hfirst.sameButRef hsame).replace_calls ?_ ?_).of_perm
        (set_perm_of_getElem? hi (.waiting call.key)) (.refl _)
      · intro f
        simp [hcall]
      · intro c hc
        rcases List.mem_cons.mp hc with rfl | hc
        · exact .inr ⟨rfl, h.whole call (List.mem_of_getElem? hi)⟩
        · exact .inl (List.mem_cons_of_mem _ hc)

/-- A `pread` of a whole block fills the frame with it. -/
theorem preadInto_eq {key : BlockKey} {buf : Bytes} (hsize : buf.length = blockSize)
    (hwhole : Whole blockSize files key) :
    preadInto (files key.segId) buf (key.blockIdx.toNat * blockSize) =
      content blockSize files key := by
  have hlen : (content blockSize files key).length = blockSize := by
    unfold Whole at hwhole
    simp [content]
    omega
  have hgot : ((files key.segId).drop (key.blockIdx.toNat * blockSize)).take buf.length =
      content blockSize files key := by rw [hsize, content]
  rw [preadInto, hgot, List.drop_of_length_le (by omega), List.append_nil]

/-- Every step keeps the invariant. -/
theorem Kept.step (h : s.Kept blockSize files) (hreads : Reads blockSize files l)
    (hfits : Unsaturated s l) (hstep : s.step blockSize files l = some s') :
    s'.Kept blockSize files := by
  cases l with
  | call key =>
      obtain rfl := Option.some.inj hstep
      refine h.replace_calls (fun f => by simp) fun c hc => ?_
      rcases List.mem_append.mp hc with hold | hnew
      · exact .inl hold
      · obtain rfl := List.mem_singleton.mp hnew
        exact .inr ⟨rfl, hreads⟩
  | lock i =>
      simp only [Pool.step] at hstep
      split at hstep
      · rename_i key hi
        obtain rfl := Option.some.inj hstep
        exact h.lock hfits hi rfl
      · rename_i key hi
        obtain rfl := Option.some.inj hstep
        exact h.lock hfits hi rfl
      · cases hstep
  | pread i failure =>
      simp only [Pool.step] at hstep
      split at hstep
      · rename_i key idx hi
        obtain rfl := Option.some.inj hstep
        have hsize := h.size idx
        have hfirst := h.of_perm (perm_of_getElem? hi).symm (.refl _)
        cases failure with
        | none =>
            have hbytes := preadInto_eq hsize (h.whole _ (List.mem_of_getElem? hi))
            refine (hfirst.pread ?_ fun _ : true = true => hbytes).of_perm
              (set_perm_of_getElem? hi _) (.refl _)
            simp [preadInto, hsize]
        | some got =>
            refine (hfirst.pread ?_ fun h : false = true => nomatch h).of_perm
              (set_perm_of_getElem? hi _) (.refl _)
            simp [hsize]
            omega
      · cases hstep
  | finish i =>
      simp only [Pool.step] at hstep
      split at hstep
      · rename_i key idx hi
        obtain rfl := Option.some.inj hstep
        exact (h.of_perm (perm_of_getElem? hi).symm (.refl _)).commit
      · rename_i key idx hi
        obtain rfl := Option.some.inj hstep
        have hfirst := h.of_perm (perm_of_getElem? hi).symm (.refl _)
        obtain ⟨hnone, hguards, -, -⟩ := hfirst.of_loader rfl
        exact hfirst.unpin (fun _ h => h) (fun _ => List.mem_cons_of_mem _) (fun _ _ => rfl)
          (fun f hf => by simp [hf.symm]) hnone (by simp [hguards, hnone])
      · cases hstep
  | drop j =>
      simp only [Pool.step] at hstep
      split at hstep
      · rename_i guard hj
        obtain rfl := Option.some.inj hstep
        have hfirst := h.of_perm (.refl _) (perm_of_getElem? hj).symm
        have hnone := hfirst.loadersOn_of_key (hfirst.guardKey guard (by simp))
        exact hfirst.unpin (fun _ => List.mem_cons_of_mem _) (fun _ h => h)
          (fun f hf => by simp [hf.symm]) (fun _ _ => rfl) hnone (by simp [hnone])
      · cases hstep

theorem buf_lock (s : Pool n) (i : ℕ) (key : BlockKey) (f : Fin n) :
    ((s.lock i key).cache.frames f).buf = (s.cache.frames f).buf := by
  rw [Pool.lock]
  split
  · rename_i hhit
    exact ClockCache.buf_of_pinHit hhit f
  · have hsame := s.cache.findVictim_spec.1.buf f
    split <;> rename_i hvictim <;> rw [hvictim] at hsame
    · simpa using hsame
    · exact hsame

/-- Only a loader writes to its frame. -/
theorem pread_of_buf_ne {f : Fin n} (hstep : s.step blockSize files l = some s')
    (hne : (s'.cache.frames f).buf ≠ (s.cache.frames f).buf) :
    ∃ i key failure, l = .pread i failure ∧ s.calls[i]? = some (.loading key f) := by
  cases l with
  | call key =>
      obtain rfl := Option.some.inj hstep
      exact absurd rfl hne
  | lock i =>
      simp only [Pool.step] at hstep
      split at hstep
      · obtain rfl := Option.some.inj hstep
        exact absurd (buf_lock ..) hne
      · obtain rfl := Option.some.inj hstep
        exact absurd (buf_lock ..) hne
      · cases hstep
  | pread i failure =>
      simp only [Pool.step] at hstep
      split at hstep
      · rename_i key idx hi
        obtain rfl := Option.some.inj hstep
        by_cases hf : f = idx
        · exact ⟨i, key, failure, rfl, hf ▸ hi⟩
        · exact absurd (by simp [ClockCache.modify, hf]) hne
      · cases hstep
  | finish i =>
      simp only [Pool.step] at hstep
      split at hstep
      · obtain rfl := Option.some.inj hstep
        exact absurd (by simp) hne
      · obtain rfl := Option.some.inj hstep
        exact absurd (by simp) hne
      · cases hstep
  | drop j =>
      simp only [Pool.step] at hstep
      split at hstep
      · obtain rfl := Option.some.inj hstep
        exact absurd (by simp) hne
      · cases hstep

/-- The hand is always the index of a frame, as the source takes it to be. -/
theorem step_hand_lt (hn : 0 < n) (h : s.cache.hand < n)
    (hstep : s.step blockSize files l = some s') : s'.cache.hand < n := by
  have hlock : ∀ (i : ℕ) (key : BlockKey), (s.lock i key).cache.hand < n := by
    intro i key
    have hvictim := ClockCache.sweep_hand_lt (k := 2 * n) (c := s.cache) hn (.inl h)
    rw [Pool.lock]
    split
    · rename_i hhit
      obtain ⟨idx, -, heq⟩ := Option.map_eq_some_iff.mp hhit
      obtain ⟨-, rfl⟩ := Prod.mk.inj heq
      exact h
    · split <;> rename_i hfound <;> rw [← ClockCache.findVictim, hfound] at hvictim <;>
        exact hvictim
  cases l with
  | call key =>
      obtain rfl := Option.some.inj hstep
      exact h
  | lock i =>
      simp only [Pool.step] at hstep
      split at hstep
      · obtain rfl := Option.some.inj hstep
        exact hlock ..
      · obtain rfl := Option.some.inj hstep
        exact hlock ..
      · cases hstep
  | pread i failure =>
      simp only [Pool.step] at hstep
      split at hstep
      · obtain rfl := Option.some.inj hstep
        exact h
      · cases hstep
  | finish i =>
      simp only [Pool.step] at hstep
      split at hstep
      · obtain rfl := Option.some.inj hstep
        exact h
      · obtain rfl := Option.some.inj hstep
        exact h
      · cases hstep
  | drop j =>
      simp only [Pool.step] at hstep
      split at hstep
      · obtain rfl := Option.some.inj hstep
        exact h
      · cases hstep

theorem hand_lt (hn : 0 < n) (h : Reaches (Pool.step blockSize files) (fun _ _ => True)
    (Pool.init n blockSize) s) : s.cache.hand < n :=
  h.invariant (P := fun s : Pool n => s.cache.hand < n) hn fun hs _ hstep => step_hand_lt hn hs hstep

/-- In every run that reads whole blocks and pins no frame 2 ^ 32 times: the guards' bytes are
those of their blocks; the pin count of a frame is the number of its guards and loaders, so
that no unpin underflows; a victim has neither, and a frame that is written to has one
loader, the writer, and no guard. -/
theorem readBlock_sound (h : Reaches (Pool.step blockSize files)
      (fun s l => Reads blockSize files l ∧ Unsaturated s l) (Pool.init n blockSize) s) :
    (∀ guard ∈ s.guards, (s.cache.frames guard.idx).buf = content blockSize files guard.key) ∧
    (∀ f, (s.cache.frames f).pinCount = guardsOn s.guards f + loadersOn s.calls f) ∧
    (∀ f, s.cache.findVictim.1 = some f →
      guardsOn s.guards f = 0 ∧ loadersOn s.calls f = 0) ∧
    (∀ l s' f, s.step blockSize files l = some s' →
      (s'.cache.frames f).buf ≠ (s.cache.frames f).buf →
        guardsOn s.guards f = 0 ∧ loadersOn s.calls f = 1 ∧
          ∃ i key failure, l = .pread i failure ∧ s.calls[i]? = some (.loading key f)) := by
  have hkept : s.Kept blockSize files :=
    h.invariant (Kept.init n blockSize files) fun hs hok hstep => hs.step hok.1 hok.2 hstep
  refine ⟨fun guard hguard => hkept.bytes _ _ (hkept.guardKey guard hguard), hkept.pins,
    fun f hf => ?_, fun l s' f hstep hne => ?_⟩
  · have hfree := (s.cache.findVictim_spec).2 f hf
    have hpins := hkept.pins f
    omega
  · obtain ⟨i, key, failure, rfl, hi⟩ := pread_of_buf_ne hstep hne
    have hpos : 0 < loadersOn s.calls f :=
      List.countP_pos_iff.mpr ⟨_, List.mem_of_getElem? hi, by simp⟩
    exact ⟨hkept.guardsOn_of_loader hpos, (hkept.loader f hpos).1, i, key, failure, rfl, hi⟩

end Runs

/-! ## One block, read again and again -/

section OneBlock

/-- Every segment is the one block `[7]`. -/
def oneBlockFile : UInt32 → Bytes := fun _ => [7]

def firstBlock : BlockKey := ⟨0, 0⟩

/-- A call that misses, loads and returns a guard. -/
def firstRead : List Label := [.call firstBlock, .lock 0, .pread 0 none, .finish 0]

theorem readBlock_sound_one : ∃ s : Pool 1,
    Reaches (Pool.step 1 oneBlockFile) (fun s l => Reads 1 oneBlockFile l ∧ Unsaturated s l)
      (Pool.init 1 1) s ∧ s.guards = [⟨0, firstBlock⟩] ∧
    ∀ guard ∈ s.guards, (s.cache.frames guard.idx).buf = content 1 oneBlockFile guard.key := by
  obtain ⟨s, hs, hguards⟩ : ∃ s : Pool 1, Reaches (Pool.step 1 oneBlockFile)
      (fun s l => Reads 1 oneBlockFile l ∧ Unsaturated s l) (Pool.init 1 1) s ∧
      s.guards = [⟨0, firstBlock⟩] :=
    Reaches.exists_of_execute firstRead Pool.guards _ (by decide) (by decide)
  exact ⟨s, hs, hguards, (readBlock_sound hs).1⟩

/-- The pool after the block was read `k + 1` times, with all guards alive. -/
def afterReads (k : ℕ) : Pool 1 where
  cache := ⟨fun _ => ⟨[7], some firstBlock, true, (k + 1) % 2 ^ 32⟩,
    Function.update (fun _ => none) firstBlock (some 0), 0⟩
  calls := []
  guards := List.replicate (k + 1) ⟨0, firstBlock⟩

theorem update_one {α : Type*} (f : Fin 1 → α) (a : α) :
    Function.update f 0 a = fun _ => a := by
  funext i
  rw [Subsingleton.elim i 0, Function.update_self]

theorem reaches_afterReads (k : ℕ) :
    Reaches (Pool.step 1 oneBlockFile) (fun _ l => Reads 1 oneBlockFile l) (Pool.init 1 1)
      (afterReads k) := by
  have hwhole : Whole 1 oneBlockFile firstBlock := by decide
  induction k with
  | zero =>
      have hexec : execute (Pool.step 1 oneBlockFile) firstRead (Pool.init 1 1) =
          some (afterReads 0) := by
        simp [execute, firstRead, Pool.step, Pool.init, Pool.lock, ClockCache.pinHit,
          ClockCache.new, ClockCache.findVictim, ClockCache.sweep, ClockCache.prepareLoad,
          ClockCache.commitLoad, ClockCache.modify, update_one, afterReads]
        rfl
      exact Reaches.start.of_execute (by decide) hexec
  | succ k ih =>
      have hexec : execute (Pool.step 1 oneBlockFile) [.call firstBlock, .lock 0] (afterReads k) =
          some (afterReads (k + 1)) := by
        simp [execute, afterReads, Pool.step, Pool.lock, ClockCache.pinHit, ClockCache.modify,
          update_one, List.replicate_succ]
      have hreads : Disciplined (Pool.step 1 oneBlockFile) (fun _ l => Reads 1 oneBlockFile l)
          [.call firstBlock, .lock 0] (afterReads k) :=
        ⟨hwhole, fun _ _ => ⟨trivial, fun _ _ => trivial⟩⟩
      exact ih.of_execute hreads hexec

/-- After 2 ^ 32 reads the pin count has wrapped to zero: the frame is chosen as a victim
while all its guards are alive. -/
theorem readBlock_evicts_pinned : ∃ s : Pool 1,
    Reaches (Pool.step 1 oneBlockFile) (fun _ l => Reads 1 oneBlockFile l) (Pool.init 1 1) s ∧
    guardsOn s.guards 0 = 2 ^ 32 ∧ (s.cache.frames 0).pinCount = 0 ∧
    s.cache.findVictim.1 = some 0 := by
  obtain ⟨k, hk⟩ : ∃ k, k + 1 = 2 ^ 32 := ⟨2 ^ 32 - 1, by norm_num⟩
  refine ⟨afterReads k, reaches_afterReads k, ?_, ?_, ?_⟩
  · rw [afterReads, guardsOn, List.countP_replicate, if_pos (by simp), hk]
  · simp only [afterReads, hk, Nat.mod_self]
  · simp only [afterReads, hk, Nat.mod_self]
    simp [ClockCache.findVictim, ClockCache.sweep, ClockCache.modify, update_one]

end OneBlock

end Pool

end Todb.Wal.Disk
