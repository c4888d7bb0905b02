import Todb.Verification.Iterators.Memtable

/-! # Range scans

A scan is positioned by one bound and ended by the other. Over a sequence in scan order it
yields the entries of the range; a later repositioning goes to the merged cursor unchecked. -/

namespace Todb.Lsm

open Library

/-! ## Ranges -/

/-- A lower bound admits the key. -/
def Bound.admitsAbove : Bound → Bytes → Bool
  | .included bound, key => decide (bound ≤ key)
  | .excluded bound, key => decide (bound < key)
  | .unbounded, _ => true

/-- An upper bound admits the key. -/
def Bound.admitsBelow : Bound → Bytes → Bool
  | .included bound, key => decide (key ≤ bound)
  | .excluded bound, key => decide (key < bound)
  | .unbounded, _ => true

/-- The key satisfies both bounds. -/
def ScanRange.contains (self : ScanRange) (key : Bytes) : Bool :=
  self.lower.admitsAbove key && self.upper.admitsBelow key

/-- The key is on this side of the bound that the scan starts from. -/
def withinStart (d : Direction) (start : Bound) (key : Bytes) : Bool :=
  match start with
  | .included bound => !decide (d.comesBefore key bound)
  | .excluded bound => decide (d.comesBefore bound key)
  | .unbounded => true

theorem admitsAbove_eq (bound : Bound) (key : Bytes) :
    bound.admitsAbove key = withinStart .forward bound key ∧
      bound.admitsAbove key = LsmScan.withinStop .reverse bound key := by
  cases bound with
  | included b =>
      have hle : decide (b ≤ key) = !decide (Direction.forward.comesBefore key b) := by
        rw [← decide_not]
        exact decide_eq_decide.mpr not_lt.symm
      exact ⟨hle, hle⟩
  | excluded b => exact ⟨decide_eq_decide.mpr .rfl, decide_eq_decide.mpr .rfl⟩
  | unbounded => exact ⟨rfl, rfl⟩

theorem admitsBelow_eq (bound : Bound) (key : Bytes) :
    bound.admitsBelow key = withinStart .reverse bound key ∧
      bound.admitsBelow key = LsmScan.withinStop .forward bound key := by
  cases bound with
  | included b =>
      have hle : decide (key ≤ b) = !decide (Direction.forward.comesBefore b key) := by
        rw [← decide_not]
        exact decide_eq_decide.mpr not_lt.symm
      exact ⟨hle, hle⟩
  | excluded b => exact ⟨decide_eq_decide.mpr .rfl, decide_eq_decide.mpr .rfl⟩
  | unbounded => exact ⟨rfl, rfl⟩

theorem contains_eq (range : ScanRange) (d : Direction) (key : Bytes) : range.contains key =
    (withinStart d (range.start d) key && LsmScan.withinStop d (range.stop d) key) := by
  cases d with
  | forward =>
      rw [ScanRange.contains, (admitsAbove_eq _ _).1, (admitsBelow_eq _ _).2]
      rfl
  | reverse =>
      rw [ScanRange.contains, (admitsAbove_eq _ _).2, (admitsBelow_eq _ _).1, Bool.and_comm]
      rfl

section Bounds

variable {d : Direction} {bound : Bound} {k k' : Bytes}

theorem withinStart_of_le (hk : withinStart d bound k) (hle : ¬ d.comesBefore k' k) :
    withinStart d bound k' := by
  cases bound with
  | included b =>
      simp only [withinStart, Bool.not_eq_true', decide_eq_false_iff_not] at hk ⊢
      exact fun hlt => hle (hlt.trans_not hk)
  | excluded b =>
      simp only [withinStart, decide_eq_true_eq] at hk ⊢
      exact hk.trans_not hle
  | unbounded => rfl

theorem withinStop_of_le (hk : LsmScan.withinStop d bound k') (hle : ¬ d.comesBefore k' k) :
    LsmScan.withinStop d bound k := by
  cases bound with
  | included b =>
      simp only [LsmScan.withinStop, Bool.not_eq_true', decide_eq_false_iff_not] at hk ⊢
      exact fun hlt => hk (hlt.trans_not hle)
  | excluded b =>
      simp only [LsmScan.withinStop, decide_eq_true_eq] at hk ⊢
      rcases d.comesBefore_trichotomy k k' with h | rfl | h
      · exact h.trans hk
      · exact hk
      · exact (hle h).elim
  | unbounded => rfl

end Bounds

namespace LsmScan

variable {ι : Type} [Cursor ι Bytes (Entry Bytes) Fault]
  {seqs : Direction → List (Bytes × Entry Bytes)} {d : Direction} {range : ScanRange}
  {s : LsmScan ι} {l : List (Bytes × Entry Bytes)}

/-! ## Positioning -/

/-- The scan's cursor stands before `l`. -/
structure At (seqs : Direction → List (Bytes × Entry Bytes)) (d : Direction) (range : ScanRange)
    (s : LsmScan ι) (l : List (Bytes × Entry Bytes)) : Prop where
  dir : s.dir = d
  range : s.range = range
  inner : Cursor.StandsAt seqs d s.inner l
  sorted : d.Sorted l

/-- In a sequence from `key` on, what follows the entries with this key. -/
theorem skipEqual_eq {key : Bytes} {inner : ι} {n : ℕ} (h : Cursor.StandsAt seqs d inner l)
    (hsorted : d.Sorted l) (hfrom : ∀ e ∈ l, ¬ d.comesBefore e.1 key)
    (hn : l.countP (fun e => e.1 = key) < n) :
    ∃ inner', skipEqual d key n inner = .ok inner' ∧
      Cursor.StandsAt seqs d inner' (l.filter fun e => d.comesBefore key e.1) := by
  induction n generalizing inner l with
  | zero => omega
  | succ n ih =>
      obtain ⟨hvalid, hkey, -⟩ := h.yields.read
      cases l with
      | nil => exact ⟨inner, by simp [skipEqual, hvalid], h⟩
      | cons e l =>
          by_cases heq : e.1 = key
          · obtain ⟨t, ht, hat⟩ := Cursor.simulation_iterates.next h
            have hcount : l.countP (fun e => e.1 = key) < n := by
              rw [List.countP_cons_of_pos (by simpa using heq)] at hn
              omega
            obtain ⟨inner', hinner', hrest⟩ := ih hat hsorted.of_cons
              (fun e' he' => hfrom e' (.tail _ he')) hcount
            refine ⟨inner', by simpa [skipEqual, hvalid, hkey, heq, ht] using hinner', ?_⟩
            rwa [List.filter_cons_of_neg (by simpa [heq] using d.comesBefore_irrefl key)]
          · refine ⟨inner, by simp [skipEqual, hvalid, hkey, heq], ?_⟩
            have hlt : d.comesBefore key e.1 :=
              ((d.comesBefore_trichotomy key e.1).resolve_right
                (not_or.mpr ⟨fun h => heq h.symm, hfrom e List.mem_cons_self⟩))
            rwa [List.filter_eq_self.mpr]
            simpa using hsorted.comesBefore_all hlt

/-- `init` stands before the entries that the start bound admits. -/
theorem init_eq {inner : ι} {fuel : ℕ} (h : Cursor.Iterates seqs inner)
    (hsorted : d.Sorted (seqs d)) (range : ScanRange)
    (hfuel : ∀ key, (seqs d).countP (fun e => e.1 = key) < fuel) :
    ∃ s, init fuel ⟨d, inner, range⟩ = .ok s ∧
      At seqs d range s ((seqs d).filter fun e => withinStart d (range.start d) e.1) := by
  have hbefore : ∀ key, (seqs d).filter (fun e => !Cursor.before d key e) =
      (seqs d).filter fun e => !decide (d.comesBefore e.1 key) := fun key => by
    simp only [Direction.before_eq]
  cases hstart : range.start d with
  | included key =>
      obtain ⟨t, ht, hat⟩ := Cursor.simulation_iterates.seek d key h
      rw [hbefore] at hat
      exact ⟨⟨d, t, range⟩, by simp [init, hstart, ht], rfl, rfl, hat, hsorted.filter _⟩
  | excluded key =>
      obtain ⟨t, ht, hat⟩ := Cursor.simulation_iterates.seek d key h
      rw [hbefore] at hat
      obtain ⟨u, hu, hskip⟩ := skipEqual_eq hat (hsorted.filter _)
        (fun e he => by simpa using (List.mem_filter.mp he).2)
        ((List.filter_sublist.countP_le).trans_lt (hfuel key))
      have hfilter : ((seqs d).filter fun e => !decide (d.comesBefore e.1 key)).filter
          (fun e => d.comesBefore key e.1) = (seqs d).filter fun e => d.comesBefore key e.1 := by
        rw [List.filter_filter]
        refine List.filter_congr fun e _ => ?_
        by_cases hlt : d.comesBefore key e.1
        · simp [hlt, hlt.asymm]
        · simp [hlt]
      rw [hfilter] at hskip
      exact ⟨⟨d, u, range⟩, by simp [init, hstart, ht, hu], rfl, rfl, hskip, hsorted.filter _⟩
  | unbounded =>
      obtain ⟨t, ht, hat⟩ := Cursor.simulation_iterates.seekToFirst d h
      refine ⟨⟨d, t, range⟩, by simp [init, hstart, ht], rfl, rfl, ?_, hsorted.filter _⟩
      simpa [withinStart] using hat

/-! ## Reading -/

namespace At

theorem valid_eq (h : At seqs d range s l) :
    s.valid = .ok (l.head?.any fun e => withinStop d (range.stop d) e.1) := by
  obtain ⟨hvalid, hkey, -⟩ := h.inner.yields.read
  cases l with
  | nil => simp [LsmScan.valid, hvalid]
  | cons e l =>
      simp [LsmScan.valid, hvalid, hkey, h.dir, h.range, bind, Except.bind, pure, Except.pure]

theorem key_eq (h : At seqs d range s l) :
    s.key = .ok ((l.head?.filter fun e => withinStop d (range.stop d) e.1).map Prod.fst) := by
  obtain ⟨-, hkey, -⟩ := h.inner.yields.read
  cases l with
  | nil => simp [LsmScan.key, h.valid_eq, bind, Except.bind, pure, Except.pure]
  | cons e l =>
      obtain ⟨k, v⟩ := e
      cases hstop : withinStop d (range.stop d) k <;>
        simp [LsmScan.key, h.valid_eq, hkey, hstop, bind, Except.bind, pure, Except.pure]

theorem value_eq (h : At seqs d range s l) :
    s.value = .ok ((l.head?.filter fun e => withinStop d (range.stop d) e.1).map Prod.snd) := by
  obtain ⟨-, -, hvalue⟩ := h.inner.yields.read
  cases l with
  | nil => simp [LsmScan.value, h.valid_eq, bind, Except.bind, pure, Except.pure]
  | cons e l =>
      obtain ⟨k, v⟩ := e
      cases hstop : withinStop d (range.stop d) k <;>
        simp [LsmScan.value, h.valid_eq, hvalue, hstop, bind, Except.bind, pure, Except.pure]

theorem next (h : At seqs d range s l) :
    ∃ s', s.next = .ok s' ∧ At seqs d range s' l.tail := by
  obtain ⟨t, ht, hat⟩ := Cursor.simulation_iterates.next h.inner
  exact ⟨{ s with inner := t }, by simp [LsmScan.next, h.dir, ht], h.dir, h.range, hat,
    h.sorted.tail⟩

end At

/-- Repeated `next`. -/
def nexts : ℕ → LsmScan ι → Ran Fault (LsmScan ι)
  | 0, s => .ok s
  | n + 1, s => s.next.bind (nexts n)

/-- However often the scan is stepped, it shows the corresponding entry of `l`, and nothing
once `l` is used up. -/
def Yields (s : LsmScan ι) (l : List (Bytes × Entry Bytes)) : Prop :=
  ∀ n, ∃ s', nexts n s = .ok s' ∧ s'.valid = .ok (decide (n < l.length)) ∧
    s'.key = .ok (l[n]?.map Prod.fst) ∧ s'.value = .ok (l[n]?.map Prod.snd)

/-- What a scan yields is determined by its state. -/
theorem Yields.unique {s : LsmScan ι} {l l' : List (Bytes × Entry Bytes)} (h : Yields s l)
    (h' : Yields s l') : l = l' := by
  refine List.ext_getElem? fun n => ?_
  obtain ⟨s₁, hs₁, -, hkey, hvalue⟩ := h n
  obtain ⟨s₂, hs₂, -, hkey', hvalue'⟩ := h' n
  obtain rfl := Ran.ok_inj.mp (hs₁.symm.trans hs₂)
  have hk := Except.ok.inj (hkey.symm.trans hkey')
  have hv := Except.ok.inj (hvalue.symm.trans hvalue')
  cases hl : l[n]? <;> cases hl' : l'[n]? <;> simp_all [Prod.ext_iff]

/-- What the stop bound hides of a sequence in scan order is all at its end. -/
theorem filter_withinStop (h : d.Sorted l) (bound : Bound) :
    (l.filter fun e => withinStop d bound e.1).head? =
        (l.head?.filter fun e => withinStop d bound e.1) ∧
      (l.filter fun e => withinStop d bound e.1).tail =
        l.tail.filter fun e => withinStop d bound e.1 := by
  cases l with
  | nil => simp
  | cons e l =>
      by_cases hstop : withinStop d bound e.1
      · simp [hstop, Option.filter]
      · have hrest : (e :: l).filter (fun e => withinStop d bound e.1) = [] := by
          refine List.filter_eq_nil_iff.mpr fun e' he' hwithin => hstop ?_
          exact withinStop_of_le hwithin (h.not_comesBefore_all (d.comesBefore_irrefl e.1) e' he')
        have htail : l.filter (fun e => withinStop d bound e.1) = [] := by
          simpa [hstop] using hrest
        simp [hrest, htail, hstop, Option.filter]

theorem At.yields (h : At seqs d range s l) :
    Yields s (l.filter fun e => withinStop d (range.stop d) e.1) := by
  intro n
  induction n generalizing s l with
  | zero =>
      have hhead := (filter_withinStop h.sorted (range.stop d)).1
      refine ⟨s, rfl, h.valid_eq.trans ?_, ?_, ?_⟩
      · rw [← Option.isSome_filter, ← hhead]
        cases (l.filter fun e => withinStop d (range.stop d) e.1) <;> simp
      · rw [h.key_eq, ← hhead, List.head?_eq_getElem?]
      · rw [h.value_eq, ← hhead, List.head?_eq_getElem?]
  | succ n ih =>
      obtain ⟨s₁, hs₁, hat⟩ := h.next
      obtain ⟨s', hs', hvalid, hkey, hvalue⟩ := ih hat
      rw [← (filter_withinStop h.sorted _).2] at hvalid hkey hvalue
      refine ⟨s', by rw [nexts, hs₁]; exact hs', hvalid.trans ?_, ?_, ?_⟩
      · rw [List.length_tail, decide_eq_decide.mpr Nat.lt_sub_iff_add_lt]
      · rw [hkey, List.getElem?_tail]
      · rw [hvalue, List.getElem?_tail]

/-! ## Every range is read exactly -/

theorem At.yields_range
    (h : At seqs d range s ((seqs d).filter fun e => withinStart d (range.start d) e.1)) :
    Yields s ((seqs d).filter fun e => range.contains e.1) := by
  have hyields := h.yields
  rw [List.filter_filter] at hyields
  simpa only [contains_eq range d, Bool.and_comm] using hyields

end LsmScan

/-- Over a sequence in scan order, in which keys may be repeated, a scan after `init` shows
exactly the entries whose keys satisfy both bounds, and nothing after them. -/
theorem scan_exact {ι : Type} [Cursor ι Bytes (Entry Bytes) Fault] (inner : ι)
    (seqs : Direction → List (Bytes × Entry Bytes)) (h : Cursor.Iterates seqs inner)
    (hsorted : ∀ d : Direction, d.Sorted (seqs d)) (d : Direction) (range : ScanRange) (fuel : ℕ)
    (hfuel : ∀ key, (seqs d).countP (fun e => e.1 = key) < fuel) :
    ∃ s, LsmScan.init fuel ⟨d, inner, range⟩ = .ok s ∧
      s.Yields ((seqs d).filter fun e => range.contains e.1) := by
  obtain ⟨s, hs, hat⟩ := LsmScan.init_eq h (hsorted d) range hfuel
  exact ⟨s, hs, hat.yields_range⟩

/-- An excluded lower bound that is the first key. -/
theorem scan_exact_excluded :
    ∃ s, LsmScan.init 3 ⟨.forward, memtableOf [([1], .put [7]), ([2], .delete)] (by decide),
        ⟨.excluded [1], .included [2]⟩⟩ = .ok s ∧ s.Yields [([2], .delete)] :=
  scan_exact _ _ (OwnedMemTableIter.iterates _)
    (fun d => (Direction.strict_order (SortedMap.ascending _) d).sorted) .forward
    ⟨.excluded [1], .included [2]⟩ 3 fun key =>
      (List.countP_le_length).trans_lt (by decide)

/-! ## Repositioning -/

/-- The calls of `ScanIter` that move a scan. -/
inductive ScanCall
  | seekToFirst
  | seek (target : Bytes)
  | next

namespace ScanCall

/-- The entry of the merged sequence that a repositioning goes to. -/
def target? (d : Direction) (seq : List (Bytes × Entry Bytes)) :
    ScanCall → Option (Bytes × Entry Bytes)
  | .seekToFirst => seq.head?
  | .seek target => seq.find? fun e => !Cursor.before d target e
  | .next => none

/-- The call does not go to an entry that only the start bound keeps out. -/
def Lands (d : Direction) (seq : List (Bytes × Entry Bytes)) (range : ScanRange)
    (call : ScanCall) : Prop :=
  ∀ e ∈ call.target? d seq, LsmScan.withinStop d (range.stop d) e.1 →
    withinStart d (range.start d) e.1

instance (d : Direction) (seq : List (Bytes × Entry Bytes)) (range : ScanRange)
    (call : ScanCall) : Decidable (call.Lands d seq range) :=
  inferInstanceAs (Decidable (∀ e ∈ call.target? d seq, _))

end ScanCall

namespace LsmScan

variable {ι : Type} [Cursor ι Bytes (Entry Bytes) Fault]
  {seqs : Direction → List (Bytes × Entry Bytes)} {d : Direction} {range : ScanRange}
  {s : LsmScan ι} {l : List (Bytes × Entry Bytes)}

def call (s : LsmScan ι) : ScanCall → Ran Fault (LsmScan ι)
  | .seekToFirst => s.seekToFirst
  | .seek target => s.seek target
  | .next => s.next

def calls : List ScanCall → LsmScan ι → Ran Fault (LsmScan ι)
  | [], s => .ok s
  | c :: history, s => (s.call c).bind (calls history)

/-- The scan is at its end or shows a key of its range. -/
def Confined (range : ScanRange) (s : LsmScan ι) : Prop :=
  s.valid = .ok false ∨
    s.valid = .ok true ∧ ∃ key, s.key = .ok (some key) ∧ range.contains key = true

/-- The entries ahead that the stop bound admits are all in the range. -/
def Ahead (d : Direction) (range : ScanRange) (l : List (Bytes × Entry Bytes)) : Prop :=
  ∀ e ∈ l, withinStop d (range.stop d) e.1 → withinStart d (range.start d) e.1

/-- The first entry decides. -/
theorem ahead_iff (h : d.Sorted l) :
    Ahead d range l ↔ ∀ e ∈ l.head?, withinStop d (range.stop d) e.1 →
      withinStart d (range.start d) e.1 := by
  refine ⟨fun hall e he => hall e (List.mem_of_mem_head? he), fun hhead e he hstop => ?_⟩
  cases l with
  | nil => exact absurd he List.not_mem_nil
  | cons e₀ l =>
      have hle := h.not_comesBefore_all (d.comesBefore_irrefl e₀.1) e he
      exact withinStart_of_le (hhead e₀ rfl (withinStop_of_le hstop hle)) hle

theorem At.confined_iff (h : At seqs d range s l) : Confined range s ↔ Ahead d range l := by
  rw [ahead_iff h.sorted, Confined, h.valid_eq, h.key_eq]
  cases l with
  | nil => simp
  | cons e l =>
      cases hstop : withinStop d (range.stop d) e.1 <;>
        simp [hstop, Option.filter, contains_eq range d]

theorem At.call (h : At seqs d range s l) (hl : Ahead d range l)
    (hsorted : d.Sorted (seqs d)) (c : ScanCall) :
    ∃ s' l', s.call c = .ok s' ∧ At seqs d range s' l' ∧
      (Ahead d range l' ↔ c.Lands d (seqs d) range) := by
  cases c with
  | seekToFirst =>
      obtain ⟨t, ht, hat⟩ := Cursor.simulation_iterates.seekToFirst d h.inner.iterates
      refine ⟨{ s with inner := t }, seqs d, ?_, ⟨h.dir, h.range, hat, hsorted⟩, ahead_iff hsorted⟩
      simp [LsmScan.call, LsmScan.seekToFirst, h.dir, ht]
  | seek target =>
      obtain ⟨t, ht, hat⟩ := Cursor.simulation_iterates.seek d target h.inner.iterates
      refine ⟨{ s with inner := t }, _, ?_, ⟨h.dir, h.range, hat, hsorted.filter _⟩, ?_⟩
      · simp [LsmScan.call, LsmScan.seek, h.dir, ht]
      · rw [ahead_iff (hsorted.filter _), List.head?_filter]
        rfl
  | next =>
      obtain ⟨s', hs', hat⟩ := h.next
      refine ⟨s', l.tail, hs', hat, fun _ e he => ?_, fun _ e he => hl e (List.mem_of_mem_tail he)⟩
      cases he

/-- Along a history, the scan stays in its range as long as every repositioning does. -/
theorem At.calls_confined_iff (h : At seqs d range s l) (hl : Ahead d range l)
    (hsorted : d.Sorted (seqs d)) (history : List ScanCall) :
    (∀ earlier, earlier <+: history → ∃ s', calls earlier s = .ok s' ∧ Confined range s') ↔
      ∀ c ∈ history, c.Lands d (seqs d) range := by
  induction history generalizing s l with
  | nil =>
      refine ⟨fun _ c hc => absurd hc List.not_mem_nil, fun _ earlier hearlier => ?_⟩
      obtain rfl := List.prefix_nil.mp hearlier
      exact ⟨s, rfl, h.confined_iff.mpr hl⟩
  | cons c history ih =>
      obtain ⟨s', l', hs', hat, hlands⟩ := h.call hl hsorted c
      have hcalls : ∀ earlier, calls (c :: earlier) s = calls earlier s' := fun earlier => by
        rw [calls, hs']
        rfl
      rw [List.forall_mem_cons]
      constructor
      · intro hall
        obtain ⟨t, ht, hconfined⟩ := hall [c] (List.prefix_append [c] history)
        obtain rfl := Ran.ok_inj.mp ((hcalls []).symm.trans ht)
        have hl' := hat.confined_iff.mp hconfined
        refine ⟨hlands.mp hl', (ih hat hl').mp fun earlier hearlier => ?_⟩
        rw [← hcalls]
        exact hall (c :: earlier) (List.cons_prefix_cons.mpr ⟨rfl, hearlier⟩)
      · rintro ⟨hc, hrest⟩ earlier hearlier
        cases earlier with
        | nil => exact ⟨s, rfl, h.confined_iff.mpr hl⟩
        | cons c' earlier =>
            obtain ⟨rfl, hprefix⟩ := List.cons_prefix_cons.mp hearlier
            rw [hcalls]
            exact (ih hat (hlands.mpr hc)).mpr hrest earlier hprefix

end LsmScan

/-- After `init`, a scan stays in its range through a history of calls exactly if every
repositioning in it goes to an entry that the start bound admits, or that is past the stop
bound, or to none. -/
theorem scan_confined_iff {ι : Type} [Cursor ι Bytes (Entry Bytes) Fault] (inner : ι)
    (seqs : Direction → List (Bytes × Entry Bytes)) (h : Cursor.Iterates seqs inner)
    (hsorted : ∀ d : Direction, d.Sorted (seqs d)) (d : Direction) (range : ScanRange) (fuel : ℕ)
    (hfuel : ∀ key, (seqs d).countP (fun e => e.1 = key) < fuel) (history : List ScanCall) :
    ∃ s, LsmScan.init fuel ⟨d, inner, range⟩ = .ok s ∧
      ((∀ earlier, earlier <+: history →
          ∃ s', LsmScan.calls earlier s = .ok s' ∧ LsmScan.Confined range s') ↔
        ∀ c ∈ history, c.Lands d (seqs d) range) := by
  obtain ⟨s, hs, hat⟩ := LsmScan.init_eq h (hsorted d) range hfuel
  refine ⟨s, hs, hat.calls_confined_iff (fun e he _ => ?_) (hsorted d) history⟩
  exact (List.mem_filter.mp he).2

/-- A seek inside the range. -/
theorem scan_confined_seek :
    ∃ s s', LsmScan.init 3 ⟨.forward, memtableOf [([1], .put [7]), ([2], .delete)] (by decide),
        ⟨.included [2], .unbounded⟩⟩ = .ok s ∧
      LsmScan.calls [.seek [2]] s = .ok s' ∧ LsmScan.Confined ⟨.included [2], .unbounded⟩ s' := by
  obtain ⟨s, hs, hiff⟩ := scan_confined_iff
    (memtableOf [([1], .put [7]), ([2], .delete)] (by decide)) _ (OwnedMemTableIter.iterates _)
    (fun d => (Direction.strict_order (SortedMap.ascending _) d).sorted) .forward
    ⟨.included [2], .unbounded⟩ 3 (fun key => (List.countP_le_length).trans_lt (by decide))
    [.seek [2]]
  obtain ⟨s', hs', hconfined⟩ := hiff.mpr (by decide) _ List.prefix_rfl
  exact ⟨s, s', hs, hs', hconfined⟩

/-- `seek_to_first` shows a key below the lower bound. -/
theorem scan_not_confined :
    ∃ s s', LsmScan.init 3 ⟨.forward, memtableOf [([1], .put [7]), ([2], .delete)] (by decide),
        ⟨.included [2], .unbounded⟩⟩ = .ok s ∧
      s.seekToFirst = .ok s' ∧ s'.valid = .ok true ∧ s'.key = .ok (some [1]) ∧
      (⟨.included [2], .unbounded⟩ : ScanRange).contains [1] = false :=
  ⟨_, _, rfl, rfl, rfl, rfl, by decide⟩

end Todb.Lsm
