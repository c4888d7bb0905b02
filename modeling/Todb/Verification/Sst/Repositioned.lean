import Todb.Library.Merge
import Todb.Verification.Sst.Reseek

/-! # Files that are positioned more than once

A scan positions the cursor of a file several times before it reads. A file with one index block
takes that. The cursor of a larger one is stuck in its first data block, where every step that
succeeds leaves it valid. -/

namespace Todb

open Library Direction

variable {ρ : Type} [BlockReader ρ] {reader : ρ} {footer : SstFooter} {root : Position}
  {ls : List Leaf} {es : List (Bytes × Entry Bytes)} {fuel h : ℕ}

namespace SstIter

/-! ## One index level -/

/-- With a single index level the depth index is always zero. -/
theorem simulation (htree : WellFormedTree reader 0 root ls) (hfuel : 2 ≤ fuel) :
    Cursor.Simulation (fun d => d.order (entriesOf ls))
      (fun it : SstIter fuel ρ => ∃ p, At reader 0 root ls it p)
      (fun d it l => ∃ p, At reader 0 root ls it p ∧ l = d.rest (entriesOf ls) p) := by
  have hplace : ∀ {it : SstIter fuel ρ} (move : Reposition), (∃ p, At reader 0 root ls it p) →
      ∃ it', it.reposition move = .ok it' ∧
        At reader 0 root ls it' (move.place (entriesOf ls)) := by
    rintro it move ⟨p, hat⟩
    obtain ⟨hreader, hover, hcurr | ⟨hpos, -⟩⟩ := hat.zero_or_deep
    · exact reposition_of_zero htree hfuel move hreader hover hcurr
    · exact absurd hpos (lt_irrefl 0)
  refine { stepping_at htree with inv_of_at := ?_, seekToFirst := ?_, seek := ?_, next_inv := ?_ }
  · rintro d it l ⟨p, hat, -⟩
    exact ⟨p, hat⟩
  · intro it d hit
    obtain ⟨it', hseek, hat⟩ := hplace (.seekToFirst d) hit
    exact ⟨it', hseek, _, hat, (rest_first d _).symm⟩
  · intro it d target hit
    obtain ⟨it', hseek, hat⟩ := hplace (.seek d target) hit
    refine ⟨it', hseek, _, hat, ?_⟩
    rw [(strict_order htree.ascending d).sorted.filter_eq_dropWhile]
    exact (htree.ascending.rest_target d target).symm
  · rintro it it' d ⟨p, hat⟩ hnext
    obtain ⟨t, ht, hat'⟩ := hat.next htree d
    obtain rfl := Ran.ok_inj.mp (ht.symm.trans hnext)
    exact ⟨_, hat'⟩

theorem simulation_flat (hfuel : 1 ≤ fuel) :
    Cursor.Simulation (fun _ => []) (fun it : SstIter fuel ρ => Flat it)
      (fun _ it l => Flat it ∧ l = []) where
  toStepping := stepping_flat
  inv_of_at hat := hat.1
  seekToFirst d hflat := ⟨_, hflat.seekToFirst d, hflat, rfl⟩
  seek d target hflat := ⟨_, hflat.seek hfuel d target, hflat, rfl⟩
  next_inv d hflat hnext := Ran.ok_inj.mp ((hflat.next d).symm.trans hnext) ▸ hflat

/-! ## Several index levels -/

/-- The cursor holds a data block and the depth index stands at the leaf level. -/
def Loaded (reader : ρ) (h : ℕ) (root : Position) (it : SstIter fuel ρ) : Prop :=
  Deep reader h root it ∧ it.dataIter.isSome

/-- The cursor is stuck with a data block. -/
def Pinned (reader : ρ) (h : ℕ) (root : Position) (it : SstIter fuel ρ) : Prop :=
  Stuck reader h root it ∧ it.dataIter.isSome

variable {it it' : SstIter fuel ρ} {d : Direction}

omit [BlockReader ρ] in
theorem Pinned.loaded (hpinned : Pinned reader h root it) : Loaded reader h root it :=
  ⟨hpinned.1.toDeep, hpinned.2⟩

omit [BlockReader ρ] in
theorem Loaded.valid (hloaded : Loaded reader h root it) : it.valid = true := by
  obtain ⟨data, hdata⟩ := Option.isSome_iff_exists.mp hloaded.2
  obtain ⟨es, m, hat⟩ := hloaded.1.data data hdata
  have hvalid : Cursor.valid data = true := hat.valid_eq
  simp [SstIter.valid, hdata, hvalid]

/-- Positioning a new cursor loads a data block: there is one. -/
theorem loaded_of_new (hheight : footer.treeHeight.toNat = h + 2)
    (htree : WellFormedTree reader h footer.rootIndexBlockPosition ls)
    (hseek : (SstIter.new fuel reader footer).seekToFirst d = .ok it') :
    Loaded reader h footer.rootIndexBlockPosition it' := by
  obtain ⟨t, ht, hat⟩ := seekToFirst_of_zero htree d rfl
    (show (SstIter.new fuel reader footer).indexIter.Over reader h footer.rootIndexBlockPosition from
      ⟨rfl, hheight, rfl⟩) rfl
  obtain rfl := Ran.ok_inj.mp (ht.symm.trans hseek)
  obtain ⟨leaf, hleaf⟩ := List.exists_mem_of_ne_nil ls htree.subtree.ne_nil
  obtain ⟨e, he⟩ := List.exists_mem_of_ne_nil _ (htree.subtree.forall_leaves leaf hleaf).1
  obtain ⟨p, hp, -⟩ := first_eq_some d
    (List.length_pos_of_mem (mem_entriesOf.mpr ⟨leaf, hleaf, he⟩))
  rw [hp] at hat
  refine ⟨hat.deep, ?_⟩
  have hvalid : t.valid = true := hat.read.1
  cases hdata : t.dataIter with
  | none => simp [SstIter.valid, hdata] at hvalid
  | some data => rfl

theorem Loaded.seekToFirst (htree : WellFormedTree reader h root ls) (hpos : 0 < h)
    (hloaded : Loaded reader h root it) (hseek : it.seekToFirst d = .ok it') :
    Pinned reader h root it' := by
  obtain ⟨t, ht, hstuck, hdata⟩ := hloaded.1.seekToFirst htree hpos d
  obtain rfl := Ran.ok_inj.mp (ht.symm.trans hseek)
  exact ⟨hstuck, by rw [hdata]; exact hloaded.2⟩

theorem endless_pinned (hpos : 0 < h) (d : Direction) :
    Cursor.Endless d (Pinned reader h root : SstIter fuel ρ → Prop) where
  valid hpinned := hpinned.loaded.valid
  next hpinned hnext := by
    obtain ⟨hstuck, hdata⟩ := hpinned.1.next hpos hnext
    exact ⟨hstuck, hdata ▸ hpinned.2⟩

end SstIter

/-- A file with at most one index block, as a source of any number of scans. -/
theorem WellFormedSst.iterates (hsst : WellFormedSst reader footer es)
    (hheight : footer.treeHeight.toNat ≤ 2) (hfuel : 2 ≤ fuel) :
    Cursor.Iterates (fun d => d.order es) (SstIter.new fuel reader footer) := by
  obtain ⟨hzero, rfl⟩ | ⟨h, ls, htall, htree, rfl⟩ := hsst.cases
  · have horder : (fun d : Direction => d.order ([] : List (Bytes × Entry Bytes))) = fun _ => [] := by
      funext d
      cases d <;> rfl
    rw [horder]
    exact (SstIter.simulation_flat (by omega)).iterates (.new hzero)
  · obtain rfl : h = 0 := by omega
    exact (SstIter.simulation htree hfuel).iterates
      ⟨none, .done rfl ⟨rfl, htall, rfl⟩ rfl (by simp [SstIter.new])⟩

end Todb
