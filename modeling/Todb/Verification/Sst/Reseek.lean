import Todb.Verification.Sst.RoundTrip

/-! # Repositioning a used iterator

Repositioning clears the level stack but not the depth index. An iterator that stands at an
entry of a tree with two or more index levels therefore never descends again. -/

namespace Todb

open Library Direction

variable {ρ : Type} [BlockReader ρ]

/-! ## Histories -/

/-- A call that repositions an iterator. -/
inductive Reposition
  | seekToFirst (d : Direction)
  | seek (d : Direction) (target : Bytes)
deriving DecidableEq

namespace Reposition

/-- The position in `es` the call asks for. -/
def place (move : Reposition) (es : List (Bytes × Entry Bytes)) : Option ℕ :=
  match move with
  | seekToFirst d => d.first es.length
  | seek d target => d.target es target

/-- The entries the call leaves behind. -/
def skips (move : Reposition) (e : Bytes × Entry Bytes) : Bool :=
  match move with
  | seekToFirst _ => false
  | seek d target => Cursor.before d target e

theorem place_eq_none {move : Reposition} {es : List (Bytes × Entry Bytes)} :
    move.place es = none ↔ ∀ e ∈ es, move.skips e = true := by
  cases move with
  | seekToFirst d =>
      cases es with
      | nil => cases d <;> simp [place, first]
      | cons e es =>
          refine iff_of_false ?_ fun hall => ?_
          · cases d <;> simp [place, first]
          · simpa [skips] using hall e (by simp)
  | seek d target =>
      cases d with
      | forward => simp [place, skips, Cursor.before, target_forward_eq_none]
      | reverse => simp [place, skips, Cursor.before, target_reverse_eq_none]

end Reposition

inductive IterCall
  | reposition (move : Reposition)
  | next (d : Direction)
deriving DecidableEq

namespace SstIter

variable {fuel : ℕ}

def reposition (it : SstIter fuel ρ) : Reposition → Ran Fault (SstIter fuel ρ)
  | .seekToFirst d => it.seekToFirst d
  | .seek d target => it.seek d target

def call (it : SstIter fuel ρ) : IterCall → Ran Fault (SstIter fuel ρ)
  | .reposition move => it.reposition move
  | .next d => it.next d

/-- A history of calls. -/
def calls : List IterCall → SstIter fuel ρ → Ran Fault (SstIter fuel ρ)
  | [], it => .ok it
  | c :: history, it => (it.call c).bind (calls history)

variable {reader : ρ} {h : ℕ} {root : Position} {ls : List Leaf} {it it' : SstIter fuel ρ}
  {p : Option ℕ}

/-! ## Iterators with a depth index of zero -/

theorem reposition_of_zero (htree : WellFormedTree reader h root ls) (hfuel : 2 ≤ fuel)
    (move : Reposition) (hreader : it.reader = reader) (hover : it.indexIter.Over reader h root)
    (hcurr : it.indexIter.currIterIdx = 0) :
    ∃ it', it.reposition move = .ok it' ∧
      At reader h root ls it' (move.place (entriesOf ls)) := by
  cases move with
  | seekToFirst d => exact seekToFirst_of_zero htree d hreader hover hcurr
  | seek d target => exact seek_of_zero htree hfuel d target hreader hover hcurr

theorem At.agree (htree : WellFormedTree reader h root ls) (hat : At reader h root ls it p)
    (hat' : At reader h root ls it' p) : Cursor.Agree it it' := by
  refine Cursor.Agree.of_bisimulation
    (R := fun it it' => ∃ p, At reader h root ls it p ∧ At reader h root ls it' p) ?_ ?_
    ⟨p, hat, hat'⟩
  · rintro it it' ⟨p, hat, hat'⟩
    obtain ⟨hvalid, hkey, hvalue⟩ := hat.read
    obtain ⟨hvalid', hkey', hvalue'⟩ := hat'.read
    exact ⟨hvalid.trans hvalid'.symm, hkey.trans hkey'.symm, hvalue.trans hvalue'.symm⟩
  · rintro it it' d ⟨p, hat, hat'⟩
    obtain ⟨t, ht, hat⟩ := hat.next htree d
    obtain ⟨t', ht', hat'⟩ := hat'.next htree d
    exact ⟨t, t', ht, ht', _, hat, hat'⟩

/-! ## Iterators with a depth index at the leaf level -/

/-- The depth index stands at the leaf index level; the data cursor, if any, is at an entry. -/
structure Deep (reader : ρ) (h : ℕ) (root : Position) (it : SstIter fuel ρ) : Prop where
  reader_eq : it.reader = reader
  indexOver : it.indexIter.Over reader h root
  currIterIdx_eq : it.indexIter.currIterIdx = h
  data : ∀ data, it.dataIter = some data → ∃ es m, data.At es (some m)

/-- Only the root level is on the stack, far from the level the depth index names. -/
structure Stuck (reader : ρ) (h : ℕ) (root : Position) (it : SstIter fuel ρ) : Prop
    extends Deep reader h root it where
  root_only : ∃ ic, it.indexIter.indexIters = [ic]

theorem At.deep {p : ℕ} (hat : At reader h root ls it (some p)) : Deep reader h root it := by
  generalize hp : some p = q at hat
  cases hat with
  | entry hreader hindex hleaf hdata hat =>
      refine ⟨hreader, hindex.toOver, hindex.currIterIdx_eq, ?_⟩
      rintro data hdata'
      obtain rfl := Option.some.inj (hdata.symm.trans hdata')
      exact ⟨_, _, hat⟩
  | done => cases hp

omit [BlockReader ρ] in
theorem Stuck.indexIter_invalid (hstuck : Stuck reader h root it) (hpos : 0 < h) :
    it.indexIter.valid = false := by
  obtain ⟨ic, hiters⟩ := hstuck.root_only
  have hnone : it.indexIter.current = none := by
    rw [IndexTreeIter.current, hiters, hstuck.currIterIdx_eq]
    exact List.getElem?_eq_none hpos
  rw [IndexTreeIter.valid, hnone]

omit [BlockReader ρ] in
theorem Deep.reroot (hdeep : Deep reader h root it) (ic : IndexBlockCursor) :
    Stuck reader h root (it.withIndex { it.indexIter with indexIters := [ic] }) :=
  ⟨⟨hdeep.reader_eq, hdeep.indexOver.update _ _, hdeep.currIterIdx_eq, hdeep.data⟩, ic, rfl⟩

omit [BlockReader ρ] in
theorem Stuck.dropData (hstuck : Stuck reader h root it) :
    Stuck reader h root ({ it with dataIter := none } : SstIter fuel ρ) :=
  ⟨⟨hstuck.reader_eq, hstuck.indexOver, hstuck.currIterIdx_eq, by simp⟩, hstuck.root_only⟩

/-- `seek_to_first` keeps the old data block. -/
theorem Deep.seekToFirst (htree : WellFormedTree reader h root ls) (hpos : 0 < h)
    (hdeep : Deep reader h root it) (d : Direction) :
    ∃ it', it.seekToFirst d = .ok it' ∧ Stuck reader h root it' ∧ it'.dataIter = it.dataIter := by
  obtain ⟨ic, hseek⟩ := IndexTreeIter.innerSeekToFirst_of_last d hdeep.indexOver htree.subtree
    htree.ascending hdeep.currIterIdx_eq
  have hstuck := hdeep.reroot ic
  refine ⟨_, ?_, hstuck, rfl⟩
  have hinvalid := hstuck.indexIter_invalid hpos
  simp [SstIter.seekToFirst, hseek, hinvalid]

/-- `seek` drops the data block. -/
theorem Deep.seek (htree : WellFormedTree reader h root ls) (hpos : 0 < h) (hfuel : 1 ≤ fuel)
    (hdeep : Deep reader h root it) (d : Direction) (t : Bytes) :
    ∃ it', it.seek d t = .ok it' ∧ Stuck reader h root it' ∧ it'.dataIter = none := by
  obtain ⟨n, rfl⟩ : ∃ n, fuel = n + 1 := ⟨fuel - 1, by omega⟩
  obtain ⟨ic, hlocate⟩ := IndexTreeIter.locate_of_last t hdeep.indexOver htree.subtree htree.ascending
    hdeep.currIterIdx_eq
  have hstuck := hdeep.reroot ic
  have hinvalid := hstuck.indexIter_invalid hpos
  cases d with
  | forward =>
      refine ⟨_, ?_, hstuck.dropData, rfl⟩
      simp [SstIter.seek, IndexTreeIter.seek, hlocate, hinvalid]
  | reverse =>
      obtain ⟨ic', hseek⟩ := IndexTreeIter.innerSeekToFirst_of_last .reverse hstuck.indexOver
        htree.subtree htree.ascending hstuck.currIterIdx_eq
      have hstuck' := hstuck.toDeep.reroot ic'
      have hinvalid' := hstuck'.indexIter_invalid hpos
      refine ⟨_, ?_, hstuck'.dropData, rfl⟩
      simp only [withIndex] at hinvalid hinvalid' hseek
      simp [SstIter.seek, IndexTreeIter.seek, hlocate, withIndex, hinvalid, hseek, reverseSeekLoop,
        hinvalid']

theorem Deep.reposition (htree : WellFormedTree reader h root ls) (hpos : 0 < h)
    (hfuel : 1 ≤ fuel) (hdeep : Deep reader h root it) (move : Reposition) :
    ∃ it', it.reposition move = .ok it' ∧ Stuck reader h root it' := by
  cases move with
  | seekToFirst d =>
      obtain ⟨it', hseek, hstuck, -⟩ := hdeep.seekToFirst htree hpos d
      exact ⟨it', hseek, hstuck⟩
  | seek d target =>
      obtain ⟨it', hseek, hstuck, -⟩ := hdeep.seek htree hpos hfuel d target
      exact ⟨it', hseek, hstuck⟩

/-- Stepping beyond the data block indexes the level stack out of range. -/
theorem Stuck.innerNext (hstuck : Stuck reader h root it) (hpos : 0 < h) (d : Direction) :
    IndexTreeIter.innerNext d it.indexIter = .fail .panic it.indexIter := by
  obtain ⟨n, rfl⟩ : ∃ n, h = n + 1 := ⟨h - 1, by omega⟩
  obtain ⟨ic, hiters⟩ := hstuck.root_only
  have hheight : ¬ it.indexIter.treeHeight < 2 := by
    rw [hstuck.indexOver.treeHeight_eq]
    omega
  have hne : ¬ it.indexIter.indexIters.isEmpty = true := by simp [hiters]
  have hclimb : IndexTreeIter.climb d (n + 1) it.indexIter =
      .fail .panic (true, it.indexIter) := by
    simp [IndexTreeIter.climb, IndexTreeIter.stepLevel, hiters, index]
  rw [IndexTreeIter.innerNext, if_neg hheight, if_neg hne, hstuck.currIterIdx_eq, hclimb,
    Ran.chain_fail]

/-- Steps that succeed stay within the data block. -/
theorem Stuck.next (hstuck : Stuck reader h root it) (hpos : 0 < h) {d : Direction}
    (hnext : it.next d = .ok it') :
    Stuck reader h root it' ∧ it'.dataIter.isSome = it.dataIter.isSome := by
  cases hdata : it.dataIter with
  | none =>
      obtain rfl : it = it' := by simpa [SstIter.next, hdata] using hnext
      exact ⟨hstuck, by rw [hdata]⟩
  | some data =>
      obtain ⟨es, m, hat⟩ := hstuck.data data hdata
      obtain ⟨data', hmove, hat'⟩ := hat.next d
      have hvalid : Cursor.valid data' = (d.step es.length (some m)).isSome := hat'.valid_eq
      cases hstep : d.step es.length (some m) with
      | none =>
          rw [hstep] at hvalid
          simp [SstIter.next, hdata, hmove, withData, hvalid, hstuck.innerNext hpos d] at hnext
      | some m' =>
          rw [hstep] at hat' hvalid
          rw [next_within hdata hmove hvalid] at hnext
          obtain rfl := Ran.ok_inj.mp hnext
          refine ⟨⟨⟨hstuck.reader_eq, hstuck.indexOver, hstuck.currIterIdx_eq, ?_⟩,
            hstuck.root_only⟩, rfl⟩
          rintro data₀ hdata₀
          obtain rfl := Option.some.inj hdata₀
          exact ⟨es, m', hat'⟩

/-- An iterator that is stuck on a data block panics when it is stepped to its end. -/
theorem Stuck.panics (hstuck : Stuck reader h root it) (hpos : 0 < h) {data : DataBlockCursor}
    (hdata : it.dataIter = some data) : ∃ ds, ∀ t, Cursor.steps ds it ≠ .ok t := by
  obtain ⟨es, m, hat⟩ := hstuck.data data hdata
  obtain ⟨n, hn⟩ : ∃ n, es.length = m + 1 + n :=
    ⟨es.length - (m + 1), by have := hat.inside m rfl; omega⟩
  -- The induction is on the number of entries after the cursor.
  induction n generalizing it data m with
  | zero =>
      refine ⟨[.forward], fun t ht => ?_⟩
      obtain ⟨data', hmove, hat'⟩ := hat.next .forward
      have hvalid : Cursor.valid data' = false := by
        rw [show Cursor.valid data' = _ from hat'.valid_eq]
        simp [step, hn]
      have hnext : Cursor.next Direction.forward it = it.next .forward := rfl
      simp [Cursor.steps, hnext, SstIter.next, hdata, hmove, withData, hvalid,
        hstuck.innerNext hpos .forward] at ht
  | succ n ih =>
      obtain ⟨data', hmove, hat'⟩ := hat.next .forward
      have hstep : Direction.forward.step es.length (some m) = some (m + 1) := by
        simp [step]
        omega
      rw [hstep] at hat'
      have hnext := next_within hdata hmove hat'.valid_eq
      obtain ⟨ds, hds⟩ := ih (hstuck.next hpos hnext).1 rfl (m + 1) hat' (by omega)
      refine ⟨.forward :: ds, fun t ht => hds t ?_⟩
      have hnext' : Cursor.next Direction.forward it = .ok (it.withData data') := hnext
      simpa [Cursor.steps, hnext'] using ht

/-! ## Every history -/

theorem At.zero_or_deep (hat : At reader h root ls it p) :
    it.reader = reader ∧ it.indexIter.Over reader h root ∧
      (it.indexIter.currIterIdx = 0 ∨ 0 < h ∧ Deep reader h root it) := by
  cases hat with
  | entry hreader hindex hleaf hdata hat =>
      refine ⟨hreader, hindex.toOver, ?_⟩
      rcases Nat.eq_zero_or_pos h with hzero | hpos
      · exact .inl (hindex.currIterIdx_eq.trans hzero)
      · exact .inr ⟨hpos, (At.entry hreader hindex hleaf hdata hat).deep⟩
  | done hreader hindex hcurr => exact ⟨hreader, hindex, .inl hcurr⟩

/-- The states of an iterator after any history. -/
def Reached (reader : ρ) (h : ℕ) (root : Position) (ls : List Leaf) (it : SstIter fuel ρ) : Prop :=
  (∃ p, At reader h root ls it p) ∨ 0 < h ∧ Stuck reader h root it

theorem Reached.zero_or_deep (hreached : Reached reader h root ls it) :
    it.reader = reader ∧ it.indexIter.Over reader h root ∧
      (it.indexIter.currIterIdx = 0 ∨ 0 < h ∧ Deep reader h root it) := by
  rcases hreached with ⟨p, hat⟩ | ⟨hpos, hstuck⟩
  · exact hat.zero_or_deep
  · exact ⟨hstuck.reader_eq, hstuck.indexOver, .inr ⟨hpos, hstuck.toDeep⟩⟩

theorem Reached.call (htree : WellFormedTree reader h root ls) (hfuel : 2 ≤ fuel)
    (hreached : Reached reader h root ls it) (c : IterCall) (hcall : it.call c = .ok it') :
    Reached reader h root ls it' := by
  cases c with
  | reposition move =>
      obtain ⟨hreader, hover, hcurr | ⟨hpos, hdeep⟩⟩ := hreached.zero_or_deep
      · obtain ⟨t, ht, hat⟩ := reposition_of_zero htree hfuel move hreader hover hcurr
        obtain rfl := Ran.ok_inj.mp (ht.symm.trans hcall)
        exact .inl ⟨_, hat⟩
      · obtain ⟨t, ht, hstuck⟩ := hdeep.reposition htree hpos (by omega) move
        obtain rfl := Ran.ok_inj.mp (ht.symm.trans hcall)
        exact .inr ⟨hpos, hstuck⟩
  | next d =>
      rcases hreached with ⟨p, hat⟩ | ⟨hpos, hstuck⟩
      · obtain ⟨t, ht, hat⟩ := hat.next htree d
        obtain rfl := Ran.ok_inj.mp (ht.symm.trans hcall)
        exact .inl ⟨_, hat⟩
      · exact .inr ⟨hpos, (hstuck.next hpos hcall).1⟩

theorem Reached.calls (htree : WellFormedTree reader h root ls) (hfuel : 2 ≤ fuel)
    (history : List IterCall) (hreached : Reached reader h root ls it)
    (hcalls : calls history it = .ok it') : Reached reader h root ls it' := by
  induction history generalizing it with
  | nil => exact Ran.ok_inj.mp hcalls ▸ hreached
  | cons c history ih =>
      obtain ⟨mid, hcall, hrest⟩ := Ran.bind_eq_ok.mp hcalls
      exact ih (hreached.call htree hfuel c hcall) hrest

theorem Flat.reposition (hflat : Flat it) (hfuel : 1 ≤ fuel) (move : Reposition) :
    it.reposition move = .ok it := by
  cases move with
  | seekToFirst d => exact hflat.seekToFirst d
  | seek d target => exact hflat.seek hfuel d target

theorem Flat.calls (hflat : Flat it) (hfuel : 1 ≤ fuel) (history : List IterCall)
    (hcalls : calls history it = .ok it') : it = it' := by
  induction history with
  | nil => exact Ran.ok_inj.mp hcalls
  | cons c history ih =>
      have hcall : it.call c = .ok it := by
        cases c with
        | reposition move => exact hflat.reposition hfuel move
        | next d => exact hflat.next d
      rw [SstIter.calls, hcall, Ran.bind_ok] at hcalls
      exact ih hcalls

/-! ## Comparison with a fresh iterator -/

/-- An iterator without a data block stays invalid, as one past the end does. -/
theorem agree_of_none (htree : WellFormedTree reader h root ls) (hdata : it.dataIter = none)
    (hat : At reader h root ls it' none) : Cursor.Agree it it' := by
  refine Cursor.Agree.of_bisimulation
    (R := fun it it' => it.dataIter = none ∧ At reader h root ls it' none) ?_ ?_ ⟨hdata, hat⟩
  · rintro it it' ⟨hdata, hat⟩
    obtain ⟨hvalid, hkey, hvalue⟩ := hat.read
    refine ⟨?_, ?_, ?_⟩
    · exact (show it.valid = false by simp [valid, hdata]).trans hvalid.symm
    · exact (show it.key = .ok none by simp [key, hdata]).trans hkey.symm
    · exact (show it.value = .ok none by simp [value, hdata]).trans hvalue.symm
  · rintro it it' d ⟨hdata, hat⟩
    obtain ⟨t, ht, hat'⟩ := hat.next htree d
    exact ⟨it, t, show it.next d = _ by simp [SstIter.next, hdata], ht, hdata, hat'⟩

theorem Flat.agree (hflat : Flat it) : Cursor.Agree it it := by
  refine Cursor.Agree.of_bisimulation (R := fun it it' => Flat it ∧ it = it') ?_ ?_ ⟨hflat, rfl⟩
  · rintro it it' ⟨-, rfl⟩
    exact ⟨rfl, rfl, rfl⟩
  · rintro it it' d ⟨hflat, rfl⟩
    exact ⟨it, it, hflat.next d, hflat.next d, hflat, rfl⟩

/-- A stuck iterator agrees with one that found an entry in nothing but the error. -/
theorem Stuck.not_agree (hstuck : Stuck reader h root it) (hpos : 0 < h) {q : ℕ}
    (hat : At reader h root ls it' (some q)) : ¬ Cursor.Agree it it' := by
  intro hagree
  obtain ⟨t, t', ht, ht', hvalid, -, -⟩ := hagree []
  obtain rfl := Ran.ok_inj.mp ht
  obtain rfl := Ran.ok_inj.mp ht'
  have hvalid' : it.valid = true := hvalid.trans hat.read.1
  cases hdata : it.dataIter with
  | none => simp [valid, hdata] at hvalid'
  | some data =>
      obtain ⟨ds, hds⟩ := hstuck.panics hpos hdata
      obtain ⟨t, -, ht, -⟩ := hagree ds
      exact hds t ht

end SstIter

/-- After any history of calls, repositioning the iterator is indistinguishable from
repositioning a fresh one exactly when its depth index is zero or nothing is to be found. -/
theorem sstIter_reseek_iff {reader : ρ} {footer : SstFooter} {es : List (Bytes × Entry Bytes)}
    (hsst : WellFormedSst reader footer es) {fuel : ℕ} (hfuel : 2 ≤ fuel)
    (history : List IterCall) {it : SstIter fuel ρ}
    (hcalls : SstIter.calls history (SstIter.new fuel reader footer) = .ok it)
    (move : Reposition) :
    (∃ s s', it.reposition move = .ok s ∧
      (SstIter.new fuel reader footer).reposition move = .ok s' ∧ Cursor.Agree s s') ↔
    it.indexIter.currIterIdx = 0 ∨ ∀ e ∈ es, move.skips e = true := by
  obtain ⟨hheight, -⟩ | ⟨h, ls, hheight, htree, rfl⟩ := hsst.cases
  · have hflat : (SstIter.new fuel reader footer).Flat := .new hheight
    obtain rfl := hflat.calls (by omega) history hcalls
    have hmove := hflat.reposition (by omega) move
    exact iff_of_true ⟨_, _, hmove, hmove, hflat.agree⟩ (.inl rfl)
  · have hover : (SstIter.new fuel reader footer).indexIter.Over reader h
        footer.rootIndexBlockPosition := ⟨rfl, hheight, rfl⟩
    have hreached := SstIter.Reached.calls htree hfuel history
      (.inl ⟨none, .done rfl hover rfl (by simp [SstIter.new])⟩) hcalls
    obtain ⟨s', hs', hat'⟩ := SstIter.reposition_of_zero htree hfuel move rfl hover rfl
    obtain ⟨hreader, hover, hcurr | ⟨hpos, hdeep⟩⟩ := hreached.zero_or_deep
    · obtain ⟨s, hs, hat⟩ := SstIter.reposition_of_zero htree hfuel move hreader hover hcurr
      exact iff_of_true ⟨s, s', hs, hs', hat.agree htree hat'⟩ (.inl hcurr)
    · have hne : it.indexIter.currIterIdx ≠ 0 := by
        rw [hdeep.currIterIdx_eq]
        omega
      rw [or_iff_right hne, ← Reposition.place_eq_none]
      constructor
      · rintro ⟨s, t', hs, ht', hagree⟩
        obtain rfl := Ran.ok_inj.mp (hs'.symm.trans ht')
        obtain ⟨t, ht, hstuck⟩ := hdeep.reposition htree hpos (by omega) move
        obtain rfl := Ran.ok_inj.mp (ht.symm.trans hs)
        cases hplace : move.place (entriesOf ls) with
        | none => rfl
        | some q => exact absurd hagree (hstuck.not_agree hpos (hplace ▸ hat'))
      · intro hplace
        rw [hplace] at hat'
        cases move with
        | seekToFirst d =>
            obtain ⟨leaf, hleaf⟩ := List.exists_mem_of_ne_nil ls htree.subtree.ne_nil
            obtain ⟨e, he⟩ := List.exists_mem_of_ne_nil _ (htree.subtree.forall_leaves leaf hleaf).1
            have := Reposition.place_eq_none.mp hplace e (mem_entriesOf.mpr ⟨leaf, hleaf, he⟩)
            simp [Reposition.skips] at this
        | seek d target =>
            obtain ⟨s, hs, -, hdata⟩ := hdeep.seek htree hpos (by omega) d target
            exact ⟨s, s', hs, hs', SstIter.agree_of_none htree hdata hat'⟩

/-- Three data blocks under two index levels. -/
def threeEntries : List (Bytes × Entry Bytes) :=
  [([1], .put [1, 1, 1, 1, 1, 1, 1, 1]), ([2], .put [2, 2, 2, 2, 2, 2, 2, 2]),
    ([3], .put [3, 3, 3, 3, 3, 3, 3, 3])]

theorem threeEntries_wellFormed {footer : SstFooter}
    {writer' : DefaultSstWriter InMemoryBlockWriter}
    (hbuild : buildSst (⟨.new, ⟨48⟩⟩ : DefaultSstWriter InMemoryBlockWriter) ⟨48⟩ threeEntries =
      .ok (footer, writer')) :
    WellFormedSst (⟨writer'.inner.buf, 48⟩ : InMemoryBlockReader) footer threeEntries :=
  buildSst_inMemory (by decide) (by decide) (by decide) hbuild

set_option maxRecDepth 100000 in
/-- An exhausted iterator can be repositioned. -/
theorem sstIter_reseek_iff_exhausted :
    ∃ footer writer' it, buildSst (⟨.new, ⟨48⟩⟩ : DefaultSstWriter InMemoryBlockWriter) ⟨48⟩
        threeEntries = .ok (footer, writer') ∧
      SstIter.calls [.reposition (.seekToFirst .forward), .next .forward, .next .forward,
          .next .forward]
        (SstIter.new 2 (⟨writer'.inner.buf, 48⟩ : InMemoryBlockReader) footer) = .ok it ∧
      ∃ s s', it.reposition (.seek .forward [2]) = .ok s ∧
        (SstIter.new 2 (⟨writer'.inner.buf, 48⟩ : InMemoryBlockReader) footer).reposition
          (.seek .forward [2]) = .ok s' ∧ Cursor.Agree s s' := by
  refine ⟨_, _, _, rfl, rfl, (sstIter_reseek_iff (threeEntries_wellFormed rfl) le_rfl
    [.reposition (.seekToFirst .forward), .next .forward, .next .forward, .next .forward]
    rfl _).mpr (.inl rfl)⟩

set_option maxRecDepth 100000 in
/-- After `seek_to_first`, `seek` to a key that is there finds nothing. -/
theorem sstIter_reseek_fails :
    ∃ footer writer' it s s',
      buildSst (⟨.new, ⟨48⟩⟩ : DefaultSstWriter InMemoryBlockWriter) ⟨48⟩ threeEntries =
        .ok (footer, writer') ∧
      WellFormedSst (⟨writer'.inner.buf, 48⟩ : InMemoryBlockReader) footer threeEntries ∧
      SstIter.calls [.reposition (.seekToFirst .forward)]
        (SstIter.new 2 (⟨writer'.inner.buf, 48⟩ : InMemoryBlockReader) footer) = .ok it ∧
      it.reposition (.seek .forward [2]) = .ok s ∧
      (SstIter.new 2 (⟨writer'.inner.buf, 48⟩ : InMemoryBlockReader) footer).reposition
        (.seek .forward [2]) = .ok s' ∧
      s.valid = false ∧ s'.valid = true ∧
      s'.key = .ok (some [2]) := by
  exact ⟨_, _, _, _, _, rfl, threeEntries_wellFormed rfl, rfl, rfl, rfl, rfl, rfl, rfl⟩

end Todb
