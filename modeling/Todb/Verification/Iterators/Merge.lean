import Todb.Verification.Iterators.Memtable

/-! # `MergeIter` is a stable merge

The sources in the heap stand before what they still have to yield. Popping takes the source
whose next entry is earliest, so the merged sequence goes on with that entry. -/

namespace Todb

open Library

variable {ι κ ν ε : Type} [LinearOrder κ] [Cursor ι κ ν ε]

/-! ## Sources in the heap -/

/-- A source in the heap, with the entry it stands at and those after it. -/
structure HeapSource (ι κ ν : Type) where
  wrap : HeapWrap ι
  head : κ × ν
  tail : List (κ × ν)

namespace HeapSource

/-- The entry at the source, as the heap compares it. -/
def tag (self : HeapSource ι κ ν) : ℕ × κ × ν := (self.wrap.level, self.head)

def source (self : HeapSource ι κ ν) : ℕ × List (κ × ν) := (self.wrap.level, self.head :: self.tail)

/-- The source stands where it says, before entries in scan order. -/
structure Stands (seqs : ℕ → Direction → List (κ × ν)) (d : Direction) (p : HeapSource ι κ ν) :
    Prop where
  at_head : Cursor.StandsAt (seqs p.wrap.level) d p.wrap.iter (p.head :: p.tail)
  strict : d.Strict (p.head :: p.tail)

variable {seqs : ℕ → Direction → List (κ × ν)} {d : Direction} {p q : HeapSource ι κ ν}

theorem Stands.key?_eq (hp : p.Stands seqs d) : p.wrap.key? = some p.head.1 := by
  have hkey := hp.at_head.yields.read.2.1
  simp only [List.head?_cons, Option.map_some] at hkey
  rw [HeapWrap.key?, hkey]

theorem Stands.precedes_iff (hp : p.Stands seqs d) (hq : q.Stands seqs d) :
    p.wrap.precedes d q.wrap = true ↔ ¬ Earlier d q.tag p.tag := by
  simp only [HeapWrap.precedes, hp.key?_eq, hq.key?_eq, decide_eq_true_eq, Earlier, tag, not_or,
    not_and, not_lt]
  constructor
  · rintro (h | ⟨hkey, hlevel⟩)
    · exact ⟨h.asymm, fun heq => (d.comesBefore_irrefl _ (heq ▸ h)).elim⟩
    · exact ⟨hkey ▸ d.comesBefore_irrefl _, fun _ => hlevel⟩
  · rintro ⟨hnot, hlevel⟩
    rcases d.comesBefore_trichotomy p.head.1 q.head.1 with h | h | h
    · exact .inl h
    · exact .inr ⟨h, hlevel h.symm⟩
    · exact (hnot h).elim

end HeapSource

namespace MergeIter

variable {seqs : ℕ → Direction → List (κ × ν)} {d : Direction}

theorem pop_perm {ws rest : List (HeapWrap ι)} {w : HeapWrap ι} (h : pop d ws = some (w, rest)) :
    (w :: rest).Perm ws := by
  induction ws generalizing w rest with
  | nil => cases h
  | cons v ws ih =>
      rw [pop] at h
      cases hpop : pop d ws with
      | none =>
          obtain ⟨rfl, rfl⟩ : v = w ∧ [] = rest := by simpa [hpop] using h
          cases ws with
          | nil => exact .refl _
          | cons u us =>
              rw [pop] at hpop
              split at hpop
              · cases hpop
              · split at hpop <;> cases hpop
      | some r =>
          obtain ⟨best, others⟩ := r
          simp only [hpop] at h
          split at h
          · obtain ⟨rfl, rfl⟩ : v = w ∧ ws = rest := by simpa using h
            exact .refl _
          · obtain ⟨rfl, rfl⟩ : best = w ∧ v :: others = rest := by simpa using h
            exact (List.Perm.swap v best others).trans ((ih hpop).cons v)

/-- `pop` takes a source whose entry no other source has an earlier one than. -/
theorem exists_pop {ps : List (HeapSource ι κ ν)} (hne : ps ≠ []) (hps : ∀ p ∈ ps, p.Stands seqs d) :
    ∃ p rest, pop d (ps.map HeapSource.wrap) = some (p.wrap, rest.map HeapSource.wrap) ∧
      (p :: rest).Perm ps ∧ ∀ q ∈ rest, ¬ Earlier d q.tag p.tag := by
  induction ps with
  | nil => exact (hne rfl).elim
  | cons p ps ih =>
      cases hcase : ps with
      | nil => exact ⟨p, [], rfl, .refl _, by simp⟩
      | cons q qs =>
          rw [← hcase]
          obtain ⟨best, rest, hpop, hperm, hbest⟩ := ih (by simp [hcase])
            fun r hr => hps r (.tail _ hr)
          have hp := hps p List.mem_cons_self
          have hin : best ∈ ps := hperm.subset List.mem_cons_self
          have hbest' := hps best (.tail _ hin)
          rw [List.map_cons, pop, hpop]
          simp only
          by_cases hle : p.wrap.precedes d best.wrap = true
          · rw [if_pos hle]
            refine ⟨p, ps, rfl, .refl _, fun r hr hlt => ?_⟩
            have hnot := (hp.precedes_iff hbest').mp hle
            rcases List.mem_cons.mp (hperm.mem_iff.mpr hr) with rfl | hr
            · exact hnot hlt
            · exact hbest r hr (hlt.trans_not hnot)
          · rw [if_neg hle]
            refine ⟨best, p :: rest, rfl, (List.Perm.swap p best rest).trans (hperm.cons p), ?_⟩
            intro r hr
            rcases List.mem_cons.mp hr with rfl | hr
            · have hlt := not_not.mp (mt (hp.precedes_iff hbest').mpr hle)
              exact fun h => Earlier.irrefl _ (h.trans hlt)
            · exact hbest r hr

/-! ## The invariant -/

/-- Each of `n` sources is in `items` or in the heap, under its level. -/
structure Keeps (seqs : ℕ → Direction → List (κ × ν)) (n : ℕ) (s : MergeIter ι) : Prop where
  levels : ((s.items ++ s.heap).map HeapWrap.level).Perm (List.range n)
  iterates : ∀ w ∈ s.items ++ s.heap, Cursor.Iterates (seqs w.level) w.iter

/-- The heap is positioned in direction `d`, and what its sources have left merges to `l`. -/
structure At (seqs : ℕ → Direction → List (κ × ν)) (n : ℕ) (d : Direction) (s : MergeIter ι)
    (l : List (κ × ν)) : Prop extends Keeps seqs n s where
  active : s.active = d
  heap : ∃ ps : List (HeapSource ι κ ν), s.heap = ps.map HeapSource.wrap ∧
    (∀ p ∈ ps, p.Stands seqs d) ∧ Merges d (ps.map HeapSource.source) l

variable {n : ℕ} {s s' : MergeIter ι} {l : List (κ × ν)}

theorem Keeps.of_perm {items heap : List (HeapWrap ι)} {active : Direction} (h : Keeps seqs n s)
    (hperm : (items ++ heap).Perm (s.items ++ s.heap)) : Keeps seqs n ⟨items, active, heap⟩ where
  levels := (hperm.map _).trans h.levels
  iterates w hw := h.iterates w (hperm.subset hw)

/-- Advancing one source. -/
theorem Keeps.advance {w : HeapWrap ι} {rest items heap : List (HeapWrap ι)} {iter : ι}
    {active : Direction} (h : Keeps seqs n s) (hperm : (w :: rest).Perm s.heap)
    (hnext : Cursor.next d w.iter = .ok iter)
    (hnew : (items ++ heap).Perm (s.items ++ { w with iter } :: rest)) :
    Keeps seqs n ⟨items, active, heap⟩ := by
  have hall := hperm.append_left s.items
  refine Keeps.of_perm (s := ⟨s.items, active, { w with iter } :: rest⟩) ⟨?_, fun v hv => ?_⟩ hnew
  · refine .trans (.of_eq ?_) ((hall.map HeapWrap.level).trans h.levels)
    simp
  · rcases List.mem_append.mp hv with hv | hv
    · exact h.iterates v (List.mem_append_left _ hv)
    · rcases List.mem_cons.mp hv with rfl | hv
      · have hw := h.iterates w (hall.subset (List.mem_append_right _ List.mem_cons_self))
        exact hw.call (c := .next d) hnext
      · exact h.iterates v (hall.subset (List.mem_append_right _ (.tail _ hv)))

theorem Keeps.next (h : Keeps seqs n s) (hnext : Cursor.next d s = .ok s') : Keeps seqs n s' := by
  change MergeIter.next d s = .ok s' at hnext
  rw [MergeIter.next] at hnext
  split at hnext
  · cases hpop : pop d s.heap with
    | none =>
        simp only [hpop, Ran.ok_inj] at hnext
        exact hnext ▸ h
    | some r =>
        obtain ⟨w, rest⟩ := r
        have hperm := pop_perm hpop
        simp only [hpop] at hnext
        cases hmove : Cursor.next d w.iter with
        | mk result iter =>
            cases result with
            | error e => simp [hmove, Ran.chain, Ran.fail, Ran.ok] at hnext
            | ok =>
                rw [show Cursor.next d w.iter = .ok iter from hmove, Ran.chain_ok] at hnext
                split at hnext
                · obtain rfl := Ran.ok_inj.mp hnext
                  refine h.advance hperm hmove (List.Perm.append_left _ ?_)
                  exact List.perm_append_singleton _ _
                · obtain rfl := Ran.ok_inj.mp hnext
                  refine h.advance hperm hmove ?_
                  simp
  · exact Ran.ok_inj.mp hnext ▸ h

/-! ## Positioning -/

/-- Every source is moved, and keeps its level. -/
theorem moveAll_eq_ok {move : ι → Ran ε ι} {P : ℕ → ι → Prop} {ws : List (HeapWrap ι)}
    (hmove : ∀ w ∈ ws, ∃ iter, move w.iter = .ok iter ∧ P w.level iter) :
    ∃ ws', HeapWrap.moveAll move ws = .ok ws' ∧ ws'.map HeapWrap.level = ws.map HeapWrap.level ∧
      ∀ w ∈ ws', P w.level w.iter := by
  induction ws with
  | nil => exact ⟨[], rfl, rfl, by simp⟩
  | cons w ws ih =>
      obtain ⟨iter, hiter, hP⟩ := hmove w List.mem_cons_self
      obtain ⟨ws', hws', hlevels, hall⟩ := ih fun v hv => hmove v (.tail _ hv)
      refine ⟨{ w with iter } :: ws', ?_, by simp [hlevels], ?_⟩
      · simp only [HeapWrap.moveAll, hiter, hws', Ran.map_ok, Ran.bind_ok]
        rfl
      · intro v hv
        rcases List.mem_cons.mp hv with rfl | hv
        · exact hP
        · exact hall v hv

/-- The sources that have something left, in the heap. -/
theorem exists_heapSources {rest : ℕ → List (κ × ν)} {ws : List (HeapWrap ι)}
    (hstands : ∀ w ∈ ws, Cursor.StandsAt (seqs w.level) d w.iter (rest w.level))
    (hstrict : ∀ i, d.Strict (rest i)) :
    ∃ ps : List (HeapSource ι κ ν),
      ws.filter (fun w => Cursor.valid w.iter) = ps.map HeapSource.wrap ∧
      (∀ p ∈ ps, p.Stands seqs d) ∧
      ps.map HeapSource.source =
        (ws.map fun w => (w.level, rest w.level)).filter fun source => !source.2.isEmpty := by
  induction ws with
  | nil => exact ⟨[], rfl, by simp, rfl⟩
  | cons w ws ih =>
      obtain ⟨ps, hwraps, hps, hsources⟩ := ih fun v hv => hstands v (.tail _ hv)
      have hw := hstands w List.mem_cons_self
      have hvalid := hw.yields.read.1
      cases hrest : rest w.level with
      | nil =>
          refine ⟨ps, ?_, hps, ?_⟩
          · rw [List.filter_cons_of_neg (by simp [hvalid, hrest]), hwraps]
          · simp [hsources, hrest]
      | cons e tail =>
          refine ⟨⟨w, e, tail⟩ :: ps, ?_, ?_, ?_⟩
          · rw [List.filter_cons_of_pos (by simp [hvalid, hrest]), hwraps, List.map_cons]
          · intro p hp
            rcases List.mem_cons.mp hp with rfl | hp
            · exact ⟨hrest ▸ hw, hrest ▸ hstrict w.level⟩
            · exact hps p hp
          · simp [hsources, hrest, HeapSource.source]

/-- Positioning every source where it has `rest` left positions the merge. -/
theorem Keeps.place (h : Keeps seqs n s) {move : ι → Ran ε ι} (rest : ℕ → List (κ × ν))
    (hmove : ∀ w ∈ s.items ++ s.heap, ∃ iter, move w.iter = .ok iter ∧
      Cursor.StandsAt (seqs w.level) d iter (rest w.level))
    (hstrict : ∀ i, d.Strict (rest i))
    (hmerges : Merges d ((List.range n).map fun i => (i, rest i)) l) :
    ∃ s', s.place d move = .ok s' ∧ At seqs n d s' l := by
  obtain ⟨ws, hws, hlevels, hstands⟩ := moveAll_eq_ok (P := fun level iter =>
    Cursor.StandsAt (seqs level) d iter (rest level)) hmove
  obtain ⟨ps, hwraps, hps, hsources⟩ := exists_heapSources hstands hstrict
  have hperm : (ws.filter (fun w => !Cursor.valid w.iter) ++
      ws.filter fun w => Cursor.valid w.iter).Perm ws :=
    List.perm_append_comm.trans (List.filter_append_perm _ ws)
  refine ⟨⟨ws.filter fun w => !Cursor.valid w.iter, d, ws.filter fun w => Cursor.valid w.iter⟩, ?_,
    ⟨?_, fun w hw => (hstands w (hperm.subset hw)).iterates⟩, rfl, ps, hwraps, hps, ?_⟩
  · simp only [MergeIter.place, drainToItems, hws, Ran.map_ok, Ran.bind_ok]
    rfl
  · exact (hperm.map _).trans (hlevels ▸ h.levels)
  · rw [hsources]
    refine (hmerges.perm ?_).nonempty
    have hmap := (h.levels.symm.map fun i => (i, rest i))
    rwa [← hlevels, List.map_map] at hmap

/-! ## Stepping -/

/-- The merged sequence starts with the entry that `pop` finds. -/
theorem At.pop (h : At seqs n d s l) :
    (MergeIter.pop d s.heap = none ∧ l = []) ∨
      ∃ (p : HeapSource ι κ ν) (rest : List (HeapSource ι κ ν)) (l' : List (κ × ν)),
        MergeIter.pop d s.heap = some (p.wrap, rest.map HeapSource.wrap) ∧
        (p.wrap :: rest.map HeapSource.wrap).Perm s.heap ∧ l = p.head :: l' ∧
        p.Stands seqs d ∧ (∀ q ∈ rest, q.Stands seqs d) ∧
        Merges d ((p.wrap.level, p.tail) :: rest.map HeapSource.source) l' := by
  obtain ⟨ps, hheap, hps, hmerges⟩ := h.heap
  cases ps with
  | nil =>
      refine .inl ⟨by rw [hheap]; rfl, hmerges.unique merges_nil⟩
  | cons q qs =>
      obtain ⟨p, rest, hpop, hperm, hleast⟩ := exists_pop (List.cons_ne_nil q qs) hps
      have hp := hps p (hperm.subset List.mem_cons_self)
      have hrest : ∀ r ∈ rest, r.Stands seqs d := fun r hr => hps r (hperm.subset (.tail _ hr))
      have hwraps : (p.wrap :: rest.map HeapSource.wrap).Perm s.heap := hheap ▸ hperm.map _
      have hlevels : (p.wrap.level :: rest.map fun r => r.wrap.level).Nodup := by
        have hsub : (s.heap.map HeapWrap.level).Nodup := by
          have hnodup := h.levels.nodup_iff.mpr List.nodup_range
          rw [List.map_append] at hnodup
          exact hnodup.of_append_right
        simpa [Function.comp_def] using (hwraps.map HeapWrap.level).nodup_iff.mpr hsub
      have hfirst : ∀ y ∈ tagAll ((p.wrap.level, p.tail) :: rest.map HeapSource.source),
          Earlier d p.tag y := by
        intro y hy
        obtain ⟨source, hsource, hlevel, hin⟩ := mem_tagAll.mp hy
        rcases List.mem_cons.mp hsource with rfl | hsource
        · exact .inl (List.rel_of_pairwise_cons hp.strict hin)
        · obtain ⟨r, hr, rfl⟩ := List.mem_map.mp hsource
          have hne : p.wrap.level ≠ r.wrap.level := fun heq =>
            (List.nodup_cons.mp hlevels).1 (heq ▸ List.mem_map_of_mem hr)
          have hbefore : Earlier d p.tag r.tag :=
            ((Earlier.trichotomy d p.tag r.tag).resolve_right
              (not_or.mpr ⟨fun h => hne h.1, hleast r hr⟩))
          rcases List.mem_cons.mp hin with heq | htail
          · rw [show y = r.tag from Prod.ext hlevel heq]
            exact hbefore
          · refine hbefore.trans (.inl ?_)
            exact List.rel_of_pairwise_cons (hrest r hr).strict htail
      obtain ⟨l', hl, hl'⟩ := Merges.next (hmerges.perm (hperm.symm.map _)) hfirst
      exact .inr ⟨p, rest, l', hheap ▸ hpop, hwraps, hl, hp, hrest, hl'⟩

theorem At.read (h : At seqs n d s l) : Cursor.valid s = !l.isEmpty ∧
    Cursor.key s = .ok (l.head?.map Prod.fst) ∧ Cursor.value s = .ok (l.head?.map Prod.snd) := by
  have hpeek : s.peek = (MergeIter.pop d s.heap).map Prod.fst := by rw [peek, h.active]
  rcases h.pop with ⟨hpop, rfl⟩ | ⟨p, rest, l', hpop, -, rfl, hp, -⟩
  · simp [Cursor.valid, Cursor.key, Cursor.value, hpeek, hpop]
  · obtain ⟨-, hkey, hvalue⟩ := hp.at_head.yields.read
    refine ⟨?_, ?_, ?_⟩
    · simp [Cursor.valid, hpeek, hpop]
    · change (s.peek.map fun w => Cursor.key w.iter).getD (.ok none) = _
      rw [hpeek, hpop]
      exact hkey
    · change (s.peek.map fun w => Cursor.value w.iter).getD (.ok none) = _
      rw [hpeek, hpop]
      exact hvalue

theorem At.next (h : At seqs n d s l) : ∃ s', Cursor.next d s = .ok s' ∧ At seqs n d s' l.tail := by
  change ∃ s', MergeIter.next d s = .ok s' ∧ _
  rw [MergeIter.next, if_pos h.active]
  rcases h.pop with ⟨hpop, rfl⟩ | ⟨p, rest, l', hpop, hperm, rfl, hp, hrest, hmerges⟩
  · rw [hpop]
    exact ⟨s, rfl, h⟩
  · obtain ⟨iter, hiter, hat⟩ := Cursor.simulation_iterates.next hp.at_head
    have hvalid := hat.yields.read.1
    simp only [hpop, hiter, Ran.chain_ok]
    cases htail : p.tail with
    | nil =>
        -- the source is used up, and parked
        refine ⟨_, if_neg (by simp [hvalid, htail]), ?_, h.active, rest, rfl, hrest, ?_⟩
        · exact h.advance hperm hiter (by simp)
        · rw [htail] at hmerges
          exact (hmerges.nonempty).perm (.of_eq (by
            simp [List.filter_eq_self, HeapSource.source]))
    | cons e tail =>
        refine ⟨_, if_pos (by simp [hvalid, htail]), ?_, h.active,
          rest ++ [⟨{ p.wrap with iter }, e, tail⟩], by simp, ?_, ?_⟩
        · exact h.advance hperm hiter (List.Perm.append_left _ (List.perm_append_singleton _ _))
        · intro q hq
          rcases List.mem_append.mp hq with hq | hq
          · exact hrest q hq
          · obtain rfl := List.mem_singleton.mp hq
            exact ⟨htail ▸ hat, htail ▸ hp.strict.of_cons⟩
        · rw [htail] at hmerges
          refine hmerges.perm ?_
          rw [List.map_append]
          exact (List.perm_append_singleton _ _).symm

theorem simulation {merged : Direction → List (κ × ν)}
    (hstrict : ∀ (i : ℕ) (d : Direction), d.Strict (seqs i d))
    (hmerged : ∀ d, Merges d ((List.range n).map fun i => (i, seqs i d)) (merged d)) :
    Cursor.Simulation merged (Keeps seqs n : MergeIter ι → Prop) (At seqs n) where
  inv_of_at h := h.toKeeps
  read h := h.read
  next h := h.next
  next_inv _ h hnext := h.next hnext
  seekToFirst d h := by
    refine h.place (seqs · d) (fun w hw => ?_) (fun i => hstrict i d) (hmerged d)
    exact Cursor.simulation_iterates.seekToFirst d (h.iterates w hw)
  seek d target h := by
    refine h.place (fun i => (seqs i d).filter fun e => !Cursor.before d target e)
      (fun w hw => Cursor.simulation_iterates.seek d target (h.iterates w hw))
      (fun i => (hstrict i d).filter _) ?_
    have hfilter := (hmerged d).filter fun e => !Cursor.before d target e
    rwa [List.map_map] at hfilter

/-! ## Construction -/

section New

variable {iters : List ι} {sources : List (List (κ × ν))}

/-- The entries of the source at a level, in scan order. -/
def ranked (sources : List (List (κ × ν))) (level : ℕ) (d : Direction) : List (κ × ν) :=
  d.order ((sources[level]?).getD [])

theorem strict_ranked (hasc : ∀ l ∈ sources, Ascending l) (level : ℕ) (d : Direction) :
    d.Strict (ranked sources level d) := by
  refine Direction.strict_order ?_ d
  cases hlevel : sources[level]? with
  | none => exact .nil
  | some l => exact hasc l (List.mem_of_getElem? hlevel)

omit [LinearOrder κ] in
theorem mapIdx_order (sources : List (List (κ × ν))) (d : Direction) :
    (sources.mapIdx fun i l => (i, d.order l)) =
      (List.range sources.length).map fun i => (i, ranked sources i d) := by
  refine List.ext_getElem (by simp) fun i hi hi' => ?_
  simp only [List.length_mapIdx] at hi
  simp [ranked, hi]

theorem exists_merged (hasc : ∀ l ∈ sources, Ascending l) :
    ∃ merged : Direction → List (κ × ν), ∀ d,
      Merges d ((List.range sources.length).map fun i => (i, ranked sources i d)) (merged d) := by
  refine Classical.skolem.mp fun d => exists_merges ?_ ?_
  · simpa [Function.comp_def] using List.nodup_range
  · intro source hsource
    obtain ⟨i, -, rfl⟩ := List.mem_map.mp hsource
    exact strict_ranked hasc i d

theorem keeps_new
    (hiters : List.Forall₂ (fun it l => Cursor.Iterates (fun d => d.order l) it) iters sources) :
    Keeps (ranked sources) sources.length (MergeIter.new iters) := by
  have hlength := hiters.length_eq
  refine ⟨.of_eq ?_, fun w hw => ?_⟩
  · simp only [MergeIter.new, List.append_nil, ← hlength]
    exact List.ext_getElem (by simp) fun i hi hi' => by simp
  · simp only [MergeIter.new, List.append_nil] at hw
    obtain ⟨i, hi, rfl⟩ := List.mem_mapIdx.mp hw
    have hi' : i < sources.length := hlength ▸ hi
    have hranked : ranked sources i = fun d => d.order sources[i] := by
      funext d
      simp [ranked, hi']
    rw [hranked]
    exact (List.forall₂_iff_get.mp hiters).2 i hi hi'

end New

end MergeIter

/-- A merge of cursors over strictly ascending sequences iterates their stable merge in either
direction, after any calls. -/
theorem mergeIter_iterates (iters : List ι) (sources : List (List (κ × ν)))
    (hiters : List.Forall₂ (fun it l => Cursor.Iterates (fun d => d.order l) it) iters sources)
    (hasc : ∀ l ∈ sources, Ascending l) :
    ∃ merged : Direction → List (κ × ν),
      (∀ d, Merges d (sources.mapIdx fun i l => (i, d.order l)) (merged d)) ∧
      Cursor.Iterates merged (MergeIter.new iters) := by
  obtain ⟨merged, hmerged⟩ := MergeIter.exists_merged hasc
  refine ⟨merged, fun d => MergeIter.mapIdx_order sources d ▸ hmerged d, ?_⟩
  exact (MergeIter.simulation (MergeIter.strict_ranked hasc) hmerged).iterates
    (MergeIter.keeps_new hiters)

/-- Two tables with a common key. -/
theorem mergeIter_iterates_two :
    ∃ merged : Direction → List (Bytes × Entry Bytes),
      Merges .forward [(0, [([1], .put [7]), ([2], .delete)]), (1, [([2], .put [8])])]
        (merged .forward) ∧
      Cursor.Iterates merged (MergeIter.new
        [Lsm.memtableOf [([1], .put [7]), ([2], .delete)] (by decide),
          Lsm.memtableOf [([2], .put [8])] (by decide)]) := by
  obtain ⟨merged, hmerged, hiterates⟩ := mergeIter_iterates
    [Lsm.memtableOf [([1], .put [7]), ([2], .delete)] (by decide),
      Lsm.memtableOf [([2], .put [8])] (by decide)]
    [[([1], .put [7]), ([2], .delete)], [([2], .put [8])]]
    (.cons (Lsm.OwnedMemTableIter.iterates _) (.cons (Lsm.OwnedMemTableIter.iterates _) .nil))
    (by decide)
  exact ⟨merged, hmerged .forward, hiterates⟩

end Todb
