import Todb.Verification.Iterators.Memtable
import Todb.Model.Iterators.Merge

/-! # `TwoMergeIter` lays one sequence over another

The two sides never stand at a common key between calls, and the cached side is the one
whose key comes first. -/

namespace Todb

open Library

variable {α β κ ν : Type} [LinearOrder κ] [Cursor α κ ν Fault] [Cursor β κ ν Fault] {fuel : ℕ}

namespace TwoMergeIter

variable {seqsA seqsB : Direction → List (κ × ν)} {d : Direction} {s : TwoMergeIter fuel α β}
  {la lb l : List (κ × ν)}

/-- What the two sides have left. No key is repeated `fuel` times on the second side. -/
structure Faces (seqsA seqsB : Direction → List (κ × ν)) (d : Direction)
    (s : TwoMergeIter fuel α β) (la lb : List (κ × ν)) : Prop where
  a : Cursor.StandsAt seqsA d s.a la
  b : Cursor.StandsAt seqsB d s.b lb
  sorted_a : d.Sorted la
  sorted_b : d.Sorted lb
  run_b : ∀ k : Option κ, lb.countP (fun e => some e.1 = k) < fuel

/-- The side whose first entry comes first. -/
def pick (d : Direction) : List (κ × ν) → List (κ × ν) → Option Side
  | [], [] => none
  | _ :: _, [] => some .a
  | [], _ :: _ => some .b
  | a :: _, b :: _ => some (if d.comesBefore b.1 a.1 then .b else .a)

/-- The first entries have different keys. -/
def Apart : List (κ × ν) → List (κ × ν) → Prop
  | a :: _, b :: _ => a.1 ≠ b.1
  | _, _ => True

/-- The union of what the two sides have left is `l`. -/
def At (seqsA seqsB : Direction → List (κ × ν)) (d : Direction) (s : TwoMergeIter fuel α β)
    (l : List (κ × ν)) : Prop :=
  ∃ la lb, Faces seqsA seqsB d s la lb ∧ Apart la lb ∧ s.current = pick d la lb ∧
    l = overlay d la lb

namespace Faces

omit [LinearOrder κ] in
theorem unwrapKey {ι : Type} [Cursor ι κ ν Fault] {iter : ι} {e : κ × ν}
    (h : Cursor.Yields d iter (e :: l)) : TwoMergeIter.unwrapKey iter = .ok e.1 := by
  simp [TwoMergeIter.unwrapKey, h.read.2.1, bind, Except.bind, pure, Except.pure]

theorem choose (h : Faces seqsA seqsB d s la lb) : TwoMergeIter.choose d s = .ok (pick d la lb) := by
  have ha := h.a.yields.read.1
  have hb := h.b.yields.read.1
  cases la with
  | nil => cases lb <;> simp_all [TwoMergeIter.choose, pick]
  | cons a la =>
      cases lb with
      | nil => simp_all [TwoMergeIter.choose, pick]
      | cons b lb =>
          simp [TwoMergeIter.choose, pick, ha, hb, unwrapKey h.a.yields, unwrapKey h.b.yields,
            bind, Except.bind, pure, Except.pure]

theorem nextA (h : Faces seqsA seqsB d s la lb) :
    ∃ a, Cursor.next d s.a = .ok a ∧ Faces seqsA seqsB d (⟨a, s.b, s.current⟩ : TwoMergeIter fuel α β) la.tail lb := by
  obtain ⟨a, ha, hat⟩ := Cursor.simulation_iterates.next h.a
  exact ⟨a, ha, hat, h.b, h.sorted_a.tail, h.sorted_b, h.run_b⟩

theorem nextB (h : Faces seqsA seqsB d s la lb) :
    ∃ b, Cursor.next d s.b = .ok b ∧ Faces seqsA seqsB d (⟨s.a, b, s.current⟩ : TwoMergeIter fuel α β) la lb.tail := by
  obtain ⟨b, hb, hat⟩ := Cursor.simulation_iterates.next h.b
  exact ⟨b, hb, h.a, hat, h.sorted_a, h.sorted_b.tail, fun k =>
    ((List.tail_sublist lb).countP_le).trans_lt (h.run_b k)⟩

/-- The second side is moved past the key of the first, which hides all it skips. -/
theorem skipB (h : Faces seqsA seqsB d s la lb) {n : ℕ}
    (hn : lb.countP (fun e => some e.1 = la.head?.map Prod.fst) < n) :
    ∃ s' lb', TwoMergeIter.skipB d n s = .ok s' ∧ Faces seqsA seqsB d s' la lb' ∧ Apart la lb' ∧
      overlay d la lb' = overlay d la lb := by
  induction n generalizing s lb with
  | zero => omega
  | succ n ih =>
      obtain ⟨hvalidA, hkeyA, -⟩ := h.a.yields.read
      obtain ⟨hvalidB, hkeyB, -⟩ := h.b.yields.read
      cases la with
      | nil => exact ⟨s, lb, by simp [TwoMergeIter.skipB, hvalidA], h, trivial, rfl⟩
      | cons a la =>
          cases lb with
          | nil => exact ⟨s, [], by simp [TwoMergeIter.skipB, hvalidB], h, trivial, rfl⟩
          | cons b lb =>
              by_cases heq : a.1 = b.1
              · obtain ⟨t, ht, hfaces⟩ := h.nextB
                have hcount : lb.countP (fun e => some e.1 = (a :: la).head?.map Prod.fst) < n := by
                  rw [List.countP_cons_of_pos (by simp [heq])] at hn
                  omega
                obtain ⟨s', lb', hs', hrest, hapart, hoverlay⟩ := ih hfaces hcount
                refine ⟨s', lb', ?_, hrest, hapart, hoverlay.trans (overlay_skip ?_).symm⟩
                · simpa [TwoMergeIter.skipB, hvalidA, hvalidB, hkeyA, hkeyB, heq, ht] using hs'
                · simp [heq]
              · refine ⟨s, b :: lb, ?_, h, heq, rfl⟩
                simp [TwoMergeIter.skipB, hvalidA, hvalidB, hkeyA, hkeyB, heq]

theorem settle (h : Faces seqsA seqsB d s la lb) :
    ∃ s', TwoMergeIter.settle d s = .ok s' ∧ At seqsA seqsB d s' (overlay d la lb) := by
  obtain ⟨s', lb', hs', hfaces, hapart, hoverlay⟩ := h.skipB (h.run_b (la.head?.map Prod.fst))
  refine ⟨{ s' with current := pick d la lb' }, ?_, la, lb', ⟨hfaces.a, hfaces.b, hfaces.sorted_a,
    hfaces.sorted_b, hfaces.run_b⟩, hapart, rfl, hoverlay.symm⟩
  simp [TwoMergeIter.settle, hs', hfaces.choose]

end Faces

/-- The cached side stands at the first entry of the union. -/
theorem At.cases (h : At seqsA seqsB d s l) :
    (s.current = none ∧ l = []) ∨
      (∃ a la lb, s.current = some .a ∧ Faces seqsA seqsB d s (a :: la) lb ∧
        l = a :: overlay d la lb) ∨
      ∃ b la lb, s.current = some .b ∧ Faces seqsA seqsB d s la (b :: lb) ∧
        l = b :: overlay d la lb := by
  obtain ⟨la, lb, hfaces, hapart, hcurrent, rfl⟩ := h
  cases la with
  | nil =>
      cases lb with
      | nil => exact .inl ⟨hcurrent, by simp [overlay]⟩
      | cons b lb =>
          exact .inr (.inr ⟨b, [], lb, hcurrent, hfaces, overlay_cons_right (by simp)⟩)
  | cons a la =>
      cases lb with
      | nil => exact .inr (.inl ⟨a, la, [], hcurrent, hfaces, overlay_cons_left (by simp)⟩)
      | cons b lb =>
          by_cases hlt : d.comesBefore b.1 a.1
          · rw [pick, if_pos hlt] at hcurrent
            exact .inr (.inr ⟨b, a :: la, lb, hcurrent, hfaces,
              overlay_cons_right (hfaces.sorted_a.comesBefore_all hlt)⟩)
          · rw [pick, if_neg hlt] at hcurrent
            have hfirst : d.comesBefore a.1 b.1 :=
              ((d.comesBefore_trichotomy a.1 b.1).resolve_right (not_or.mpr ⟨hapart, hlt⟩))
            exact .inr (.inl ⟨a, la, b :: lb, hcurrent, hfaces,
              overlay_cons_left (hfaces.sorted_b.comesBefore_all hfirst)⟩)

theorem At.read (h : At seqsA seqsB d s l) : Cursor.valid s = !l.isEmpty ∧
    Cursor.key s = .ok (l.head?.map Prod.fst) ∧ Cursor.value s = .ok (l.head?.map Prod.snd) := by
  rcases h.cases with ⟨hcurrent, rfl⟩ | ⟨a, la, lb, hcurrent, hfaces, rfl⟩ |
    ⟨b, la, lb, hcurrent, hfaces, rfl⟩
  · simp [Cursor.valid, Cursor.key, Cursor.value, hcurrent]
  · obtain ⟨-, hkey, hvalue⟩ := hfaces.a.yields.read
    simp only [Cursor.valid, Cursor.key, Cursor.value, hcurrent]
    exact ⟨rfl, hkey, hvalue⟩
  · obtain ⟨-, hkey, hvalue⟩ := hfaces.b.yields.read
    simp only [Cursor.valid, Cursor.key, Cursor.value, hcurrent]
    exact ⟨rfl, hkey, hvalue⟩

theorem At.next (h : At seqsA seqsB d s l) :
    ∃ s', Cursor.next d s = .ok s' ∧ At seqsA seqsB d s' l.tail := by
  change ∃ s', TwoMergeIter.next d s = .ok s' ∧ _
  rcases h.cases with ⟨hcurrent, rfl⟩ | ⟨a, la, lb, hcurrent, hfaces, rfl⟩ |
    ⟨b, la, lb, hcurrent, hfaces, rfl⟩
  · exact ⟨s, by simp [TwoMergeIter.next, hcurrent], h⟩
  · obtain ⟨t, ht, hnext⟩ := hfaces.nextA
    simpa [TwoMergeIter.next, hcurrent, ht] using hnext.settle
  · obtain ⟨t, ht, hnext⟩ := hfaces.nextB
    simpa [TwoMergeIter.next, hcurrent, ht] using hnext.settle

/-- Both sides keep iterating. -/
def Keeps (seqsA seqsB : Direction → List (κ × ν)) (s : TwoMergeIter fuel α β) : Prop :=
  Cursor.Iterates seqsA s.a ∧ Cursor.Iterates seqsB s.b

theorem Faces.place {moveA : α → Ran Fault α} {moveB : β → Ran Fault β}
    (hA : ∃ a, moveA s.a = .ok a ∧ Cursor.StandsAt seqsA d a la)
    (hB : ∃ b, moveB s.b = .ok b ∧ Cursor.StandsAt seqsB d b lb)
    (hla : d.Sorted la) (hlb : d.Sorted lb)
    (hrun : ∀ k : Option κ, lb.countP (fun e => some e.1 = k) < fuel) :
    ∃ s', TwoMergeIter.place d moveA moveB s = .ok s' ∧ At seqsA seqsB d s' (overlay d la lb) := by
  obtain ⟨a, ha, hata⟩ := hA
  obtain ⟨b, hb, hatb⟩ := hB
  have hfaces : Faces seqsA seqsB d (⟨a, b, s.current⟩ : TwoMergeIter fuel α β) la lb :=
    ⟨hata, hatb, hla, hlb, hrun⟩
  simpa [TwoMergeIter.place, ha, hb] using hfaces.settle

section Kept

/-! What is true of the two sides, and stays true when the second one is stepped, is true after
every positioning; and after every step if it stays true when the first one is stepped. -/

variable {R : α → β → Prop} {s' : TwoMergeIter fuel α β}
  (hB : ∀ {a b b'}, R a b → Cursor.next d b = .ok b' → R a b')

include hB

theorem kept_skipB {n : ℕ} (h : R s.a s.b) (hs' : TwoMergeIter.skipB d n s = .ok s') :
    R s'.a s'.b := by
  induction n generalizing s with
  | zero => simp [TwoMergeIter.skipB] at hs'
  | succ n ih =>
      rw [TwoMergeIter.skipB] at hs'
      split at hs'
      · obtain ⟨ak, -, hs'⟩ := Ran.read_eq_ok.mp hs'
        obtain ⟨bk, -, hs'⟩ := Ran.read_eq_ok.mp hs'
        split at hs'
        · obtain ⟨t, ht, hs'⟩ := Ran.bind_eq_ok.mp hs'
          obtain ⟨b, hb, rfl⟩ := Ran.map_eq_ok.mp ht
          exact ih (s := { s with b }) (hB h hb) hs'
        · exact Ran.ok_inj.mp hs' ▸ h
      · exact Ran.ok_inj.mp hs' ▸ h

theorem kept_settle (h : R s.a s.b) (hs' : TwoMergeIter.settle d s = .ok s') :
    R s'.a s'.b ∧ TwoMergeIter.choose d s' = .ok s'.current := by
  obtain ⟨t, ht, hs'⟩ := Ran.bind_eq_ok.mp hs'
  obtain ⟨current, hcurrent, hs'⟩ := Ran.read_eq_ok.mp hs'
  obtain rfl := Ran.ok_inj.mp hs'
  have hkept := kept_skipB (R := R) hB h ht
  exact ⟨hkept, hcurrent⟩

theorem kept_place {moveA : α → Ran Fault α} {moveB : β → Ran Fault β}
    (h : ∀ {a b}, moveA s.a = .ok a → moveB s.b = .ok b → R a b)
    (hs' : TwoMergeIter.place d moveA moveB s = .ok s') :
    R s'.a s'.b ∧ TwoMergeIter.choose d s' = .ok s'.current := by
  obtain ⟨t, ht, hs'⟩ := Ran.bind_eq_ok.mp hs'
  obtain ⟨a, ha, rfl⟩ := Ran.map_eq_ok.mp ht
  obtain ⟨t, ht, hs'⟩ := Ran.bind_eq_ok.mp hs'
  obtain ⟨b, hb, rfl⟩ := Ran.map_eq_ok.mp ht
  exact kept_settle (R := R) hB (h ha hb) hs'

/-- Also when the direction changes and the sides stand anywhere. -/
theorem kept_next (hA : ∀ {a a' b}, R a b → Cursor.next d a = .ok a' → R a' b) (h : R s.a s.b)
    (hs' : TwoMergeIter.next d s = .ok s') :
    R s'.a s'.b ∧ (s.current.isSome → TwoMergeIter.choose d s' = .ok s'.current) := by
  rw [TwoMergeIter.next] at hs'
  split at hs'
  · obtain ⟨t, ht, hs'⟩ := Ran.bind_eq_ok.mp hs'
    obtain ⟨a, ha, rfl⟩ := Ran.map_eq_ok.mp ht
    exact (kept_settle (R := R) hB (s := { s with a }) (hA h ha) hs').imp_right
      fun hchoose _ => hchoose
  · obtain ⟨t, ht, hs'⟩ := Ran.bind_eq_ok.mp hs'
    obtain ⟨b, hb, rfl⟩ := Ran.map_eq_ok.mp ht
    exact (kept_settle (R := R) hB (s := { s with b }) (hB h hb) hs').imp_right
      fun hchoose _ => hchoose
  · rename_i hnone
    exact ⟨Ran.ok_inj.mp hs' ▸ h, fun hsome => by simp [hnone] at hsome⟩

end Kept

theorem Keeps.next {s' : TwoMergeIter fuel α β} (h : Keeps seqsA seqsB s)
    (hs' : TwoMergeIter.next d s = .ok s') : Keeps seqsA seqsB s' :=
  (kept_next (R := fun a b => Cursor.Iterates seqsA a ∧ Cursor.Iterates seqsB b)
    (fun h hb => ⟨h.1, Cursor.simulation_iterates.next_inv d h.2 hb⟩)
    (fun h ha => ⟨Cursor.simulation_iterates.next_inv d h.1 ha, h.2⟩) h hs').1

/-- Over sequences in scan order, of which the second repeats no key `fuel` times. -/
theorem simulation (hA : ∀ d : Direction, d.Sorted (seqsA d)) (hB : ∀ d : Direction, d.Sorted (seqsB d))
    (hrun : ∀ (d : Direction) (k : Option κ), (seqsB d).countP (fun e => some e.1 = k) < fuel) :
    Cursor.Simulation (fun d => overlay d (seqsA d) (seqsB d))
      (Keeps seqsA seqsB : TwoMergeIter fuel α β → Prop) (At seqsA seqsB) where
  inv_of_at := by
    rintro d s l ⟨la, lb, hfaces, -⟩
    exact ⟨hfaces.a.iterates, hfaces.b.iterates⟩
  read h := h.read
  next h := h.next
  next_inv _ h hnext := h.next hnext
  seekToFirst d h :=
    Faces.place (Cursor.simulation_iterates.seekToFirst d h.1)
      (Cursor.simulation_iterates.seekToFirst d h.2) (hA d) (hB d) (hrun d)
  seek d target h := by
    have hfilter := overlay_filter (hA d) (hB d) fun k => !decide (d.comesBefore k target)
    simp only [← Direction.before_eq] at hfilter
    rw [hfilter]
    refine Faces.place (Cursor.simulation_iterates.seek d target h.1)
      (Cursor.simulation_iterates.seek d target h.2) ((hA d).filter _) ((hB d).filter _) fun k => ?_
    exact (List.filter_sublist.countP_le).trans_lt (hrun d k)

/-- Construction positions both sides. -/
theorem exists_new {a : α} {b : β} (ha : Cursor.Iterates seqsA a) (hb : Cursor.Iterates seqsB b)
    (hA : ∀ d : Direction, d.Sorted (seqsA d)) (hB : ∀ d : Direction, d.Sorted (seqsB d))
    (hrun : ∀ (d : Direction) (k : Option κ), (seqsB d).countP (fun e => some e.1 = k) < fuel) :
    ∃ it : TwoMergeIter fuel α β, TwoMergeIter.new fuel a b = .ok it ∧
      Cursor.StandsAt (fun d => overlay d (seqsA d) (seqsB d)) .forward it
        (overlay .forward (seqsA .forward) (seqsB .forward)) := by
  have hsim := simulation (α := α) (β := β) hA hB hrun
  obtain ⟨it, hit, hat⟩ := hsim.seekToFirst (s := ⟨a, b, none⟩) .forward ⟨ha, hb⟩
  exact ⟨it, congrArg Ran.outcome hit, hsim.iterates (hsim.inv_of_at hat), hsim.yields hat⟩

end TwoMergeIter

/-- The union of two cursors over strictly ascending sequences, in which the first one wins:
every key of either once, in either direction, from the construction on and after any calls. -/
theorem twoMergeIter_iterates (hfuel : 2 ≤ fuel) (a : α) (b : β) (la lb : List (κ × ν))
    (ha : Cursor.Iterates (fun d => d.order la) a) (hb : Cursor.Iterates (fun d => d.order lb) b)
    (hla : Ascending la) (hlb : Ascending lb) :
    ∃ (union : Direction → List (κ × ν)) (it : TwoMergeIter fuel α β),
      (∀ d : Direction, d.Strict (union d) ∧
        ∀ e, e ∈ union d ↔ e ∈ la ∨ e ∈ lb ∧ e.1 ∉ la.map Prod.fst) ∧
      TwoMergeIter.new fuel a b = .ok it ∧ Cursor.Yields .forward it (union .forward) ∧
      Cursor.Iterates union it := by
  have hstrict : ∀ {l : List (κ × ν)}, Ascending l → ∀ d : Direction, d.Strict (d.order l) :=
    fun h d => Direction.strict_order h d
  obtain ⟨it, hit, hat⟩ := TwoMergeIter.exists_new ha hb (fun d => (hstrict hla d).sorted)
    (fun d => (hstrict hlb d).sorted)
    fun d k => ((hstrict hlb d).countP_le_one k).trans_lt hfuel
  refine ⟨_, it, fun d => ⟨strict_overlay (hstrict hla d) (hstrict hlb d), fun e => ?_⟩, hit,
    hat.yields, hat.iterates⟩
  cases d <;> simp [mem_overlay, Direction.order]

/-- A table over another that has one of its keys. -/
theorem twoMergeIter_iterates_hidden :
    ∃ (union : Direction → List (Bytes × Entry Bytes))
      (it : TwoMergeIter 2 Lsm.OwnedMemTableIter Lsm.OwnedMemTableIter),
      ([2], .put [8]) ∉ union .forward ∧
      TwoMergeIter.new 2 (Lsm.memtableOf [([1], .put [7]), ([2], .delete)] (by decide))
        (Lsm.memtableOf [([2], .put [8])] (by decide)) = .ok it ∧
      Cursor.Yields .forward it (union .forward) ∧ Cursor.Iterates union it := by
  obtain ⟨union, it, hunion, hnew, hyields, hiterates⟩ := twoMergeIter_iterates le_rfl
    (Lsm.memtableOf [([1], .put [7]), ([2], .delete)] (by decide))
    (Lsm.memtableOf [([2], .put [8])] (by decide)) _ _ (Lsm.OwnedMemTableIter.iterates _)
    (Lsm.OwnedMemTableIter.iterates _) (by decide) (by decide)
  refine ⟨union, it, ?_, hnew, hyields, hiterates⟩
  rw [(hunion .forward).2]
  decide

end Todb
