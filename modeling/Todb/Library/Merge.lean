import Todb.Library.Cursor
import Todb.Library.Place

/-! # Merged sequences

Several sequences, each in scan order, merged into one: either stably, with equal keys in the
order of their sources, or with the first of two sequences hiding equal keys of the second. -/

namespace Todb.Library

namespace Direction

variable {κ ν : Type} [LinearOrder κ]

/-- `a` comes before `b` in a scan. -/
def comesBefore (d : Direction) (a b : κ) : Prop :=
  match d with
  | .forward => a < b
  | .reverse => b < a

instance (d : Direction) (a b : κ) : Decidable (d.comesBefore a b) :=
  match d with
  | .forward => inferInstanceAs (Decidable (a < b))
  | .reverse => inferInstanceAs (Decidable (b < a))

variable {d : Direction} {a b c : κ}

theorem comesBefore_irrefl (d : Direction) (a : κ) : ¬ d.comesBefore a a := by
  cases d <;> exact lt_irrefl a

theorem comesBefore.trans (hab : d.comesBefore a b) (hbc : d.comesBefore b c) :
    d.comesBefore a c := by
  cases d with
  | forward => exact lt_trans hab hbc
  | reverse => exact lt_trans hbc hab

theorem comesBefore.asymm (hab : d.comesBefore a b) : ¬ d.comesBefore b a := fun hba =>
  d.comesBefore_irrefl a (hab.trans hba)

theorem comesBefore_trichotomy (d : Direction) (a b : κ) :
    d.comesBefore a b ∨ a = b ∨ d.comesBefore b a := by
  cases d with
  | forward => exact lt_trichotomy a b
  | reverse => exact (lt_trichotomy b a).imp id (Or.imp Eq.symm id)

theorem comesBefore.trans_not (hab : d.comesBefore a b) (hcb : ¬ d.comesBefore c b) :
    d.comesBefore a c := by
  rcases d.comesBefore_trichotomy b c with hbc | rfl | h
  · exact hab.trans hbc
  · exact hab
  · exact (hcb h).elim

theorem before_eq (d : Direction) (target : κ) (e : κ × ν) :
    Cursor.before d target e = decide (d.comesBefore e.1 target) := by
  cases d <;> rfl

/-- The keys follow each other in scan order, without repetition. -/
def Strict (d : Direction) (l : List (κ × ν)) : Prop := l.Pairwise fun a b => d.comesBefore a.1 b.1

/-- The keys follow each other in scan order. -/
def Sorted (d : Direction) (l : List (κ × ν)) : Prop :=
  l.Pairwise fun a b => ¬ d.comesBefore b.1 a.1

theorem Strict.sorted {l : List (κ × ν)} (h : d.Strict l) : d.Sorted l :=
  List.Pairwise.imp (fun hab => hab.asymm) h

theorem Strict.distinct {l : List (κ × ν)} (h : d.Strict l) :
    l.Pairwise fun a b => a.1 ≠ b.1 := by
  refine h.imp ?_
  intro a b hab heq
  exact d.comesBefore_irrefl _ (heq ▸ hab)

/-- What is in scan order and has no repetition is strictly in scan order. -/
theorem Sorted.strict_iff {l : List (κ × ν)} (h : d.Sorted l) :
    d.Strict l ↔ l.Pairwise fun a b => a.1 ≠ b.1 := by
  refine ⟨Strict.distinct, fun hne => (h.and hne).imp fun {a b} hab => ?_⟩
  rcases d.comesBefore_trichotomy a.1 b.1 with hlt | heq | hgt
  · exact hlt
  · exact (hab.2 heq).elim
  · exact (hab.1 hgt).elim

/-- A sequence without repetition is determined by its entries. -/
theorem Strict.eq_of_mem_iff {l l' : List (κ × ν)} (h : d.Strict l) (h' : d.Strict l')
    (hmem : ∀ e, e ∈ l ↔ e ∈ l') : l = l' := by
  have hnodup : ∀ {l : List (κ × ν)}, d.Strict l → l.Nodup := fun h =>
    h.distinct.imp fun hne heq => hne (congrArg Prod.fst heq)
  refine ((List.perm_ext_iff_of_nodup (hnodup h) (hnodup h')).mpr hmem).eq_of_pairwise ?_ h h'
  exact fun a b _ _ hab hba => (hab.asymm hba).elim

theorem strict_order {l : List (κ × ν)} (h : Ascending l) (d : Direction) : d.Strict (d.order l) := by
  cases d with
  | forward => exact h
  | reverse => exact List.pairwise_reverse.mpr h

theorem Strict.countP_le_one {l : List (κ × ν)} (h : d.Strict l) (k : Option κ) :
    l.countP (fun e => some e.1 = k) ≤ 1 := by
  induction l with
  | nil => simp
  | cons e l ih =>
      by_cases he : some e.1 = k
      · have hnone : l.countP (fun e => some e.1 = k) = 0 := by
          refine List.countP_eq_zero.mpr fun e' he' => ?_
          have hne : e'.1 ≠ e.1 := fun heq =>
            d.comesBefore_irrefl e.1 (heq ▸ List.rel_of_pairwise_cons h he')
          simpa [← he] using hne
        rw [List.countP_cons_of_pos (by simpa using he), hnone]
      · rw [List.countP_cons_of_neg (by simpa using he)]
        exact ih h.of_cons

theorem Sorted.comesBefore_all {e : κ × ν} {l : List (κ × ν)} (h : d.Sorted (e :: l))
    (ha : d.comesBefore a e.1) : ∀ e' ∈ e :: l, d.comesBefore a e'.1 := by
  intro e' he'
  rcases List.mem_cons.mp he' with rfl | he'
  · exact ha
  · exact ha.trans_not (List.rel_of_pairwise_cons h he')

theorem Sorted.not_comesBefore_all {e : κ × ν} {l : List (κ × ν)} (h : d.Sorted (e :: l))
    (ha : ¬ d.comesBefore e.1 a) : ∀ e' ∈ e :: l, ¬ d.comesBefore e'.1 a := by
  intro e' he'
  rcases List.mem_cons.mp he' with rfl | he'
  · exact ha
  · exact fun hlt => List.rel_of_pairwise_cons h he' (hlt.trans_not ha)

/-- The entries from a target on are those left after skipping. -/
theorem Sorted.filter_eq_dropWhile {l : List (κ × ν)} (h : d.Sorted l) (target : κ) :
    l.filter (fun e => !Cursor.before d target e) = l.dropWhile (Cursor.before d target) := by
  induction l with
  | nil => rfl
  | cons e l ih =>
      by_cases hbefore : d.comesBefore e.1 target
      · rw [List.filter_cons_of_neg (by simp [before_eq, hbefore]),
          List.dropWhile_cons_of_pos (by simp [before_eq, hbefore]), ih h.of_cons]
      · rw [List.dropWhile_cons_of_neg (by simp [before_eq, hbefore])]
        refine List.filter_eq_self.mpr fun e' he' => ?_
        simpa [before_eq] using h.not_comesBefore_all hbefore e' he'

end Direction

variable {κ ν : Type} [LinearOrder κ] {d : Direction}

/-! ## Stable merges -/

/-- Entries with the position of their source: by key in scan order, then by source. -/
def Earlier (d : Direction) (x y : ℕ × κ × ν) : Prop :=
  d.comesBefore x.2.1 y.2.1 ∨ x.2.1 = y.2.1 ∧ x.1 < y.1

instance (x y : ℕ × κ × ν) : Decidable (Earlier d x y) := inferInstanceAs (Decidable (_ ∨ _))

theorem Earlier.trans {x y z : ℕ × κ × ν} (hxy : Earlier d x y) (hyz : Earlier d y z) :
    Earlier d x z := by
  rcases hxy with hxy | ⟨hxy, hlt⟩ <;> rcases hyz with hyz | ⟨hyz, hlt'⟩
  · exact .inl (hxy.trans hyz)
  · exact .inl (hyz ▸ hxy)
  · exact .inl (hxy ▸ hyz)
  · exact .inr ⟨hxy.trans hyz, hlt.trans hlt'⟩

theorem Earlier.irrefl (x : ℕ × κ × ν) : ¬ Earlier d x x := by
  rintro (h | ⟨-, h⟩)
  · exact d.comesBefore_irrefl _ h
  · exact lt_irrefl _ h

theorem Earlier.trichotomy (d : Direction) (x y : ℕ × κ × ν) :
    Earlier d x y ∨ (x.1 = y.1 ∧ x.2.1 = y.2.1) ∨ Earlier d y x := by
  rcases d.comesBefore_trichotomy x.2.1 y.2.1 with h | hkey | h
  · exact .inl (.inl h)
  · rcases lt_trichotomy x.1 y.1 with h | hlevel | h
    · exact .inl (.inr ⟨hkey, h⟩)
    · exact .inr (.inl ⟨hlevel, hkey⟩)
    · exact .inr (.inr (.inr ⟨hkey.symm, h⟩))
  · exact .inr (.inr (.inl h))

theorem Earlier.trans_not {x y z : ℕ × κ × ν} (hxy : Earlier d x y) (hzy : ¬ Earlier d z y) :
    Earlier d x z := by
  rcases Earlier.trichotomy d y z with h | ⟨hlevel, hkey⟩ | h
  · exact hxy.trans h
  · rwa [Earlier, ← hlevel, ← hkey]
  · exact (hzy h).elim

/-- The entries of all sources, with the positions of the sources. -/
def tagAll (sources : List (ℕ × List (κ × ν))) : List (ℕ × κ × ν) :=
  sources.flatMap fun source => source.2.map (source.1, ·)

/-- `l` has every entry of every source exactly once, in scan order, with equal keys in order of
their sources. -/
def Merges (d : Direction) (sources : List (ℕ × List (κ × ν))) (l : List (κ × ν)) : Prop :=
  ∃ tagged : List (ℕ × κ × ν), tagged.map Prod.snd = l ∧ tagged.Perm (tagAll sources) ∧
    tagged.Pairwise (Earlier d)

variable {sources sources' : List (ℕ × List (κ × ν))} {l l' : List (κ × ν)}

omit [LinearOrder κ] in
theorem mem_tagAll {x : ℕ × κ × ν} :
    x ∈ tagAll sources ↔ ∃ source ∈ sources, x.1 = source.1 ∧ x.2 ∈ source.2 := by
  obtain ⟨level, e⟩ := x
  simp only [tagAll, List.mem_flatMap, List.mem_map, Prod.mk.injEq]
  constructor
  · rintro ⟨source, hsource, e', he', rfl, rfl⟩
    exact ⟨source, hsource, rfl, he'⟩
  · rintro ⟨source, hsource, rfl, he⟩
    exact ⟨source, hsource, e, he, rfl, rfl⟩

theorem Merges.perm (h : Merges d sources l) (hperm : sources.Perm sources') :
    Merges d sources' l := by
  obtain ⟨tagged, hl, htagged, hsorted⟩ := h
  exact ⟨tagged, hl, htagged.trans (hperm.flatMap_right _), hsorted⟩

/-- A merge is determined by its sources. -/
theorem Merges.unique (h : Merges d sources l) (h' : Merges d sources l') : l = l' := by
  obtain ⟨tagged, rfl, hperm, hsorted⟩ := h
  obtain ⟨tagged', rfl, hperm', hsorted'⟩ := h'
  rw [(hperm.trans hperm'.symm).eq_of_pairwise (fun x y _ _ hxy hyx =>
    (Earlier.irrefl x (hxy.trans hyx)).elim) hsorted hsorted']

/-- A selection of the entries by their keys. -/
theorem Merges.filter (h : Merges d sources l) (p : κ × ν → Bool) :
    Merges d (sources.map fun source => (source.1, source.2.filter p)) (l.filter p) := by
  obtain ⟨tagged, rfl, hperm, hsorted⟩ := h
  refine ⟨tagged.filter fun x => p x.2, ?_, ?_, hsorted.filter _⟩
  · rw [List.filter_map]
    rfl
  · refine (hperm.filter _).trans (List.Perm.of_eq ?_)
    simp only [tagAll, List.filter_flatMap, List.flatMap_map, List.filter_map]
    rfl

omit [LinearOrder κ] in
theorem tagAll_filter (sources : List (ℕ × List (κ × ν))) :
    tagAll (sources.filter fun source => !source.2.isEmpty) = tagAll sources := by
  induction sources with
  | nil => rfl
  | cons source sources ih =>
      obtain ⟨level, entries⟩ := source
      cases entries with
      | nil => simpa [tagAll] using ih
      | cons e entries => simpa [tagAll] using ih

/-- Exhausted sources contribute nothing. -/
theorem Merges.nonempty (h : Merges d sources l) :
    Merges d (sources.filter fun source => !source.2.isEmpty) l := by
  obtain ⟨tagged, hl, hperm, hsorted⟩ := h
  exact ⟨tagged, hl, tagAll_filter sources ▸ hperm, hsorted⟩

/-- The first entry of a source goes first when it is earlier than all others. -/
theorem Merges.next {level : ℕ} {e : κ × ν} {rest : List (κ × ν)}
    (h : Merges d ((level, e :: rest) :: sources) l)
    (hfirst : ∀ y ∈ tagAll ((level, rest) :: sources), Earlier d (level, e) y) :
    ∃ l', l = e :: l' ∧ Merges d ((level, rest) :: sources) l' := by
  obtain ⟨tagged, rfl, hperm, hsorted⟩ := h
  have hperm : tagged.Perm ((level, e) :: tagAll ((level, rest) :: sources)) := hperm
  cases tagged with
  | nil => simp at hperm
  | cons x tagged =>
      have hx : x = (level, e) := by
        by_contra hne
        have hin : (level, e) ∈ tagged :=
          (List.mem_cons.mp (hperm.mem_iff.mpr List.mem_cons_self)).resolve_left (Ne.symm hne)
        have hout : x ∈ tagAll ((level, rest) :: sources) :=
          (List.mem_cons.mp (hperm.mem_iff.mp List.mem_cons_self)).resolve_left hne
        exact Earlier.irrefl _ ((hfirst x hout).trans (List.rel_of_pairwise_cons hsorted hin))
      subst hx
      exact ⟨_, rfl, tagged, rfl, hperm.cons_inv, hsorted.of_cons⟩

/-- No two entries have the same key and the same source. -/
theorem tagAll_distinct (hlevels : (sources.map Prod.fst).Nodup)
    (hstrict : ∀ source ∈ sources, d.Strict source.2) :
    (tagAll sources).Pairwise fun x y => ¬ (x.1 = y.1 ∧ x.2.1 = y.2.1) := by
  induction sources with
  | nil => exact .nil
  | cons source sources ih =>
      obtain ⟨hnew, hlevels⟩ := List.nodup_cons.mp hlevels
      rw [tagAll, List.flatMap_cons]
      refine List.pairwise_append.mpr ⟨?_, ih hlevels fun s hs => hstrict s (.tail _ hs), ?_⟩
      · refine List.pairwise_map.mpr ((hstrict source List.mem_cons_self).imp ?_)
        rintro a b hab ⟨-, heq⟩
        exact d.comesBefore_irrefl _ (heq ▸ hab)
      · rintro x hx y hy ⟨hlevel, -⟩
        obtain ⟨e, -, rfl⟩ := List.mem_map.mp hx
        obtain ⟨other, hother, hy, -⟩ := mem_tagAll.mp hy
        exact hnew (List.mem_map.mpr ⟨other, hother, (hlevel.trans hy).symm⟩)

/-- Sources without repetition can be merged. -/
theorem exists_merges (hlevels : (sources.map Prod.fst).Nodup)
    (hstrict : ∀ source ∈ sources, d.Strict source.2) : ∃ l, Merges d sources l := by
  let le : ℕ × κ × ν → ℕ × κ × ν → Bool := fun x y => !decide (Earlier d y x)
  have htotal : ∀ x y : ℕ × κ × ν, (le x y || le y x) = true := by
    intro x y
    by_contra h
    simp only [le, Bool.or_eq_true, Bool.not_eq_true', decide_eq_false_iff_not, not_or, not_not] at h
    exact Earlier.irrefl _ (h.1.trans h.2)
  have htrans : ∀ x y z : ℕ × κ × ν, le x y = true → le y z = true → le x z = true := by
    intro x y z
    simp only [le, Bool.not_eq_true', decide_eq_false_iff_not]
    exact fun hxy hyz hzx => hyz (hzx.trans_not hxy)
  have hperm := List.mergeSort_perm (tagAll sources) le
  have hdistinct := hperm.symm.pairwise (tagAll_distinct hlevels hstrict) (by
    rintro x y h ⟨h₁, h₂⟩
    exact h ⟨h₁.symm, h₂.symm⟩)
  refine ⟨_, _, rfl, hperm, ?_⟩
  refine ((List.pairwise_mergeSort htrans htotal _).and hdistinct).imp ?_
  rintro x y ⟨hle, hne⟩
  simp only [le, Bool.not_eq_true', decide_eq_false_iff_not] at hle
  exact (Earlier.trichotomy d x y).resolve_right (not_or.mpr ⟨hne, hle⟩)

theorem Merges.sorted (h : Merges d sources l) : d.Sorted l := by
  obtain ⟨tagged, rfl, -, hsorted⟩ := h
  refine List.pairwise_map.mpr (hsorted.imp ?_)
  rintro x y (hlt | ⟨heq, -⟩)
  · exact hlt.asymm
  · exact heq ▸ d.comesBefore_irrefl _

/-- Without the positions of the sources. -/
theorem Merges.perm_entries (h : Merges d sources l) : l.Perm (sources.flatMap Prod.snd) := by
  obtain ⟨tagged, rfl, hperm, -⟩ := h
  refine (hperm.map Prod.snd).trans (.of_eq ?_)
  simp [tagAll, List.map_flatMap, Function.comp_def]

/-- A key comes at most once from each source. -/
theorem Merges.countP_le (h : Merges d sources l) (hstrict : ∀ source ∈ sources, d.Strict source.2)
    (k : Option κ) : l.countP (fun e => some e.1 = k) ≤ sources.length := by
  rw [h.perm_entries.countP_eq]
  clear h
  induction sources with
  | nil => simp
  | cons source sources ih =>
      have hfirst := (hstrict source List.mem_cons_self).countP_le_one k
      have hrest := ih fun s hs => hstrict s (.tail _ hs)
      rw [List.flatMap_cons, List.countP_append, List.length_cons]
      omega

theorem merges_nil : Merges d ([] : List (ℕ × List (κ × ν))) [] := ⟨[], rfl, .nil, .nil⟩

/-! ## Overlays -/

section Overlay

/-- Not after in scan order. -/
def scanLe (d : Direction) (a b : κ × ν) : Bool := !decide (d.comesBefore b.1 a.1)

/-- The first sequence, with the entries of the second whose keys it lacks. -/
def overlay (d : Direction) (la lb : List (κ × ν)) : List (κ × ν) :=
  la.merge (lb.filter fun e => e.1 ∉ la.map Prod.fst) (scanLe d)

variable {la lb : List (κ × ν)} {a b : κ × ν}

theorem merge_cons_left (h : ∀ e ∈ lb, ¬ d.comesBefore e.1 a.1) :
    (a :: la).merge lb (scanLe d) = a :: la.merge lb (scanLe d) := by
  cases lb with
  | nil => simp
  | cons e lb => exact List.cons_merge_cons_pos _ _ _ (by simpa [scanLe] using h e List.mem_cons_self)

theorem merge_cons_right (h : ∀ e ∈ la, d.comesBefore b.1 e.1) :
    la.merge (b :: lb) (scanLe d) = b :: la.merge lb (scanLe d) := by
  cases la with
  | nil => simp
  | cons e la => exact List.cons_merge_cons_neg _ _ _ (by simpa [scanLe] using h e List.mem_cons_self)

theorem overlay_cons_left (h : ∀ e ∈ lb, d.comesBefore a.1 e.1) :
    overlay d (a :: la) lb = a :: overlay d la lb := by
  have hfilter : lb.filter (fun e => e.1 ∉ (a :: la).map Prod.fst) =
      lb.filter fun e => e.1 ∉ la.map Prod.fst := by
    refine List.filter_congr fun e he => ?_
    have hne : e.1 ≠ a.1 := fun heq => d.comesBefore_irrefl _ (heq ▸ h e he)
    simp [hne]
  rw [overlay, hfilter]
  exact merge_cons_left fun e he => (h e (List.mem_filter.mp he).1).asymm

theorem overlay_cons_right (h : ∀ e ∈ la, d.comesBefore b.1 e.1) :
    overlay d la (b :: lb) = b :: overlay d la lb := by
  have hkeep : b.1 ∉ la.map Prod.fst := by
    intro hin
    obtain ⟨e, he, heq⟩ := List.mem_map.mp hin
    exact d.comesBefore_irrefl _ (heq ▸ h e he)
  rw [overlay, List.filter_cons_of_pos (by simpa using hkeep)]
  exact merge_cons_right h

theorem overlay_skip (h : b.1 ∈ la.map Prod.fst) : overlay d la (b :: lb) = overlay d la lb := by
  rw [overlay, List.filter_cons_of_neg (by simpa using h), overlay]

theorem merge_filter (hla : d.Sorted la) (hlb : d.Sorted lb) (p : κ × ν → Bool) :
    (la.merge lb (scanLe d)).filter p = (la.filter p).merge (lb.filter p) (scanLe d) := by
  induction la generalizing lb with
  | nil => simp
  | cons a la ih =>
      induction lb with
      | nil => simp
      | cons b lb ih' =>
          by_cases hlt : d.comesBefore b.1 a.1
          · have hall := hla.comesBefore_all hlt
            rw [merge_cons_right hall, List.filter_cons, List.filter_cons (x := b), ih' hlb.of_cons]
            split
            · exact (merge_cons_right fun e he => hall e (List.mem_filter.mp he).1).symm
            · rfl
          · have hall := hlb.not_comesBefore_all hlt
            rw [merge_cons_left hall, List.filter_cons, List.filter_cons (x := a), ih hla.of_cons hlb]
            split
            · exact (merge_cons_left fun e he => hall e (List.mem_filter.mp he).1).symm
            · rfl

/-- A selection by keys. -/
theorem overlay_filter (hla : d.Sorted la) (hlb : d.Sorted lb) (p : κ → Bool) :
    (overlay d la lb).filter (fun e => p e.1) =
      overlay d (la.filter fun e => p e.1) (lb.filter fun e => p e.1) := by
  rw [overlay, merge_filter hla (hlb.filter _), overlay, List.filter_filter, List.filter_filter]
  congr 1
  refine List.filter_congr fun e _ => ?_
  cases hp : p e.1 with
  | false => simp
  | true =>
      simp only [Bool.true_and, Bool.and_true, decide_eq_decide, List.mem_map, List.mem_filter]
      refine not_congr ⟨?_, ?_⟩
      · rintro ⟨a, ha, heq⟩
        exact ⟨a, ⟨ha, heq ▸ hp⟩, heq⟩
      · rintro ⟨a, ⟨ha, -⟩, heq⟩
        exact ⟨a, ha, heq⟩

theorem mem_overlay {e : κ × ν} :
    e ∈ overlay d la lb ↔ e ∈ la ∨ e ∈ lb ∧ e.1 ∉ la.map Prod.fst := by
  simp [overlay, List.mem_merge]

theorem sorted_merge (hla : d.Sorted la) (hlb : d.Sorted lb) :
    d.Sorted (la.merge lb (scanLe d)) := by
  have htrans : ∀ a b c : κ × ν, scanLe d a b → scanLe d b c → scanLe d a c := by
    simp only [scanLe, Bool.not_eq_true', decide_eq_false_iff_not]
    exact fun a b c hab hbc hca => hbc (hca.trans_not hab)
  have htotal : ∀ a b : κ × ν, (scanLe d a b || scanLe d b a) = true := by
    intro a b
    by_cases hba : d.comesBefore b.1 a.1
    · simp [scanLe, hba.asymm]
    · simp [scanLe, hba]
  have hle : ∀ {l : List (κ × ν)}, d.Sorted l ↔ l.Pairwise fun a b => scanLe d a b := by
    simp [scanLe, Direction.Sorted]
  exact hle.mpr (List.pairwise_merge htrans htotal la lb (hle.mp hla) (hle.mp hlb))

@[simp] theorem overlay_nil (la : List (κ × ν)) : overlay d la [] = la := by
  simp [overlay]

theorem overlay_perm : (overlay d la lb).Perm (la ++ lb.filter fun e => e.1 ∉ la.map Prod.fst) :=
  List.merge_perm_append _

theorem sorted_overlay (hla : d.Sorted la) (hlb : d.Sorted lb) : d.Sorted (overlay d la lb) :=
  sorted_merge hla (hlb.filter _)

/-- No key of the second sequence is left that the first has: what is repeated in the union is
repeated in one of them. -/
theorem strict_overlay_iff (hla : d.Sorted la) (hlb : d.Sorted lb) :
    d.Strict (overlay d la lb) ↔
      d.Strict la ∧ d.Strict (lb.filter fun e => e.1 ∉ la.map Prod.fst) := by
  rw [(sorted_overlay hla hlb).strict_iff, hla.strict_iff, Direction.Sorted.strict_iff (hlb.filter _),
    overlay_perm.pairwise_iff Ne.symm, List.pairwise_append]
  refine ⟨fun h => ⟨h.1, h.2.1⟩, fun h => ⟨h.1, h.2, fun a ha b hb heq => ?_⟩⟩
  exact of_decide_eq_true (List.mem_filter.mp hb).2 (heq ▸ List.mem_map_of_mem ha)

theorem strict_overlay (hla : d.Strict la) (hlb : d.Strict lb) : d.Strict (overlay d la lb) :=
  (strict_overlay_iff hla.sorted hlb.sorted).mpr ⟨hla, hlb.filter _⟩

end Overlay

end Todb.Library
