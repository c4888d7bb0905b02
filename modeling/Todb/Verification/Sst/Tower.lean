import Todb.Library.Packing
import Todb.Verification.Storage.Files
import Todb.Verification.Sst.BlockCodec
import Todb.Verification.Sst.IndexTree

/-! # The index levels under construction

`Tower` relates the builders of all index levels to the data blocks written so far: each
builder holds the open group of its level's greedy packing, and every entry it holds is a
complete subtree of the file. Adding an entry at the bottom keeps this. -/

namespace Todb

open Library

/-! ## Growing files -/

/-- A subtree stays where it is when a reader serves at least the same blocks. -/
theorem Subtree.mono {ρ ρ' : Type} [BlockReader ρ] [BlockReader ρ'] {reader : ρ} {reader' : ρ'}
    (hmono : ∀ position block, BlockReader.readBlock reader position = .ok block →
      BlockReader.readBlock reader' position = .ok block)
    {h : ℕ} {position : Position} {ls : List Leaf} (hsub : Subtree reader h position ls) :
    Subtree reader' h position ls := by
  induction h generalizing position ls with
  | zero =>
      obtain ⟨block, es, hread, hblock, hne, rfl⟩ := subtree_leaf hsub
      rw [Subtree]
      exact ⟨block, es, hmono _ _ hread, hblock, hne, rfl⟩
  | succ h ih =>
      obtain ⟨block, children, lss, hread, hblock, hne, rfl, hc⟩ := subtree_node hsub
      rw [Subtree]
      refine ⟨block, children, lss, hmono _ _ hread, hblock, hne, rfl, ?_⟩
      exact List.Forall₂.imp (fun _ _ hchild => ⟨ih hchild.1, hchild.2⟩) hc

theorem readBlock_grid_append {file block : Bytes} {blockSize : ℕ} (more : Bytes) :
    ∀ position, BlockReader.readBlock (⟨file, blockSize⟩ : BlockGrid) position = .ok block →
      BlockReader.readBlock (⟨file ++ more, blockSize⟩ : BlockGrid) position =
        .ok block := by
  intro position hread
  rw [readBlock_grid] at hread ⊢
  exact ⟨hread.1, blockAt_append more hread.2⟩

theorem Children.mono_append {file : Bytes} {blockSize h : ℕ} (more : Bytes)
    {children : List (Bytes × Position)} {lss : List (List Leaf)}
    (hc : Children (⟨file, blockSize⟩ : BlockGrid) h children lss) :
    Children (⟨file ++ more, blockSize⟩ : BlockGrid) h children lss :=
  List.Forall₂.imp (fun _ _ hchild =>
    ⟨hchild.1.mono (fun position _ => readBlock_grid_append more position), hchild.2⟩) hc

/-- The last key below a node is its last end key. -/
theorem Children.lastKeyOf_flatten {ρ : Type} [BlockReader ρ] {reader : ρ} {h : ℕ}
    {children : List (Bytes × Position)} {lss : List (List Leaf)}
    (hc : Children reader h children lss) {child : Bytes × Position}
    (hlast : children.getLast? = some child) : lastKeyOf lss.flatten = some child.1 := by
  induction hc with
  | nil => simp at hlast
  | @cons first cl children lss hhead htail ih =>
      rw [List.flatten_cons, lastKeyOf, entriesOf_append, List.getLast?_append, Option.map_or]
      change (lastKeyOf lss.flatten).or (lastKeyOf cl) = _
      cases htail with
      | nil =>
          obtain rfl : first = child := by simpa using hlast
          exact hhead.2
      | cons hsecond hrest =>
          rw [ih (by simpa [List.getLast?_cons_cons] using hlast)]
          rfl

/-! ## Builders and their level's packing -/

/-- Does an index entry for `key` overflow a block that holds entries for `keys`? -/
def indexFull (option : SstOption) (keys : List Bytes) (key : Bytes) : Bool :=
  decide (option.blockSize < blockFixedHeaderSize +
    (keys.map IndexBlockBuilder.entrySize).sum + IndexBlockBuilder.entrySize key)

/-- Whichever of the keys share an index block, its offsets fit 32 bits. -/
def SmallIndex (option : SstOption) (keys : List Bytes) : Prop :=
  ∀ ks : List Bytes, ks.Sublist keys →
    blockFixedHeaderSize + (ks.map IndexBlockBuilder.entrySize).sum ≤ option.blockSize →
    blockFixedHeaderSize + (ks.map IndexBlockBuilder.entrySize).sum < 2 ^ 32

theorem SmallIndex.sublist {option : SstOption} {keys keys' : List Bytes}
    (h : SmallIndex option keys) (hsub : keys'.Sublist keys) : SmallIndex option keys' :=
  fun ks hks => h ks (hks.trans hsub)

namespace IndexBlockBuilder

/-- The builder holds entries with the given end keys, and they fit a block. -/
structure Fills (builder : IndexBlockBuilder) (option : SstOption) (keys : List Bytes) :
    Prop where
  option_eq : builder.option = option
  keys_eq : builder.entries.map IndexEntry.endKey = keys
  size_eq : builder.estimatedSize = (keys.map entrySize).sum
  fits : blockFixedHeaderSize + (keys.map entrySize).sum ≤ option.blockSize

def children (builder : IndexBlockBuilder) : List (Bytes × Position) :=
  builder.entries.map fun e => (e.endKey, e.child)

variable {builder builder' : IndexBlockBuilder} {option : SstOption} {keys : List Bytes}

theorem wouldExceed_eq (h : builder.Fills option keys) (key : Bytes) :
    builder.wouldExceed key = indexFull option keys key := by
  simp only [wouldExceed, indexFull, h.option_eq, h.size_eq]

/-- A successful `add` to a builder the entry fits. -/
theorem Fills.add (h : builder.Fills option keys) {key : Bytes} {child : Position}
    (hfits : indexFull option keys key = false) (hadd : builder.add key child = .ok builder') :
    builder'.Fills option (keys ++ [key]) ∧
      builder'.children = builder.children ++ [(key, child)] := by
  simp only [IndexBlockBuilder.add] at hadd
  split at hadd
  · obtain rfl := Except.ok.inj hadd
    simp only [indexFull, decide_eq_false_iff_not, not_lt] at hfits
    refine ⟨⟨h.option_eq, by simp [h.keys_eq], by simp [h.size_eq], ?_⟩, by simp [children]⟩
    simp only [List.map_append, List.sum_append, List.map_cons, List.map_nil, List.sum_cons,
      List.sum_nil]
    omega
  · cases hadd

theorem fills_new (option : SstOption) (hsize : blockFixedHeaderSize ≤ option.blockSize) :
    (new option).Fills option [] :=
  ⟨rfl, rfl, rfl, by simpa using hsize⟩

/-- The first `add` to a new builder: the assertion makes it fit. -/
theorem fills_first {key : Bytes} {child : Position}
    (hadd : (new option).add key child = .ok builder') :
    builder'.Fills option [key] ∧ builder'.children = [(key, child)] := by
  have hlt : blockFixedHeaderSize + entrySize key < option.blockSize := by
    by_contra hge
    simp [IndexBlockBuilder.add, new, hge] at hadd
  have hfits : indexFull option [] key = false := by
    simp only [indexFull, decide_eq_false_iff_not, not_lt, List.map_nil, List.sum_nil]
    omega
  exact (fills_new option (by omega)).add hfits hadd

/-- The last entry of a builder that holds some. -/
theorem Fills.exists_last (h : builder.Fills option keys) {key : Bytes}
    (hkey : keys.getLast? = some key) :
    builder.isEmpty = false ∧ ∃ last, builder.lastEntry = some last ∧ last.endKey = key ∧
      builder.children.getLast? = some (key, last.child) := by
  rw [← h.keys_eq, List.getLast?_map] at hkey
  obtain ⟨last, hlast, rfl⟩ := Option.map_eq_some_iff.mp hkey
  refine ⟨?_, last, hlast, rfl, ?_⟩
  · rw [isEmpty, List.isEmpty_eq_false_iff]
    rintro hnil
    simp [hnil] at hlast
  · rw [children, List.getLast?_map, hlast]
    rfl

/-- The bytes of a block of children, without the padding. -/
theorem Fills.length_blockBody_children (h : builder.Fills option keys) :
    (blockBody (builder.entries.map fun e => (e.endKey, encodeChild e.child))).length =
      blockFixedHeaderSize + (keys.map entrySize).sum := by
  rw [length_blockBody, List.map_map, ← h.keys_eq, List.map_map]
  congr 2

/-- A finished builder's block holds its children. -/
theorem Fills.indexBlock (h : builder.Fills option keys) (hsmall : SmallIndex option keys) :
    IndexBlock builder.finish.1 builder.children := by
  have hlength := h.length_blockBody_children
  have hfits := h.fits
  refine indexBlock_finishBlock ?_ ?_
  · rw [hlength, h.option_eq]
    exact hfits
  · rw [hlength]
    exact hsmall keys (.refl _) hfits

end IndexBlockBuilder

/-! ## Towers -/

section Tower

variable (option : SstOption)

/-- The builders from `level` upwards, when entries with the end keys `keys` have arrived at
`level`: the number of index blocks written above, and the data blocks covered, the top
level's first. -/
inductive Tower (file : Bytes) :
    ℕ → List Bytes → List IndexBlockBuilder → ℕ → List Leaf → Prop
  | nil {level : ℕ} : Tower file level [] [] 0 []
  | cons {level w : ℕ} {keys : List Bytes} {builder : IndexBlockBuilder}
      {above : List IndexBlockBuilder} {ls : List Leaf} {lss : List (List Leaf)}
      (hne : keys ≠ []) (hfills : builder.Fills option (pack (indexFull option) keys).current)
      (hc : Children (⟨file, option.blockSize⟩ : BlockGrid) level builder.children lss)
      (habove : Tower file (level + 1) (promoted (indexFull option) keys) above w ls) :
      Tower file level keys (builder :: above)
        (w + (promoted (indexFull option) keys).length) (ls ++ lss.flatten)

variable {option} {file : Bytes} {level w : ℕ} {keys : List Bytes}
  {builders : List IndexBlockBuilder} {ls : List Leaf}

theorem Tower.append (more : Bytes) (h : Tower option file level keys builders w ls) :
    Tower option (file ++ more) level keys builders w ls := by
  induction h with
  | nil => exact .nil
  | cons hne hfills hc _ ih => exact .cons hne hfills (hc.mono_append more) ih

theorem Tower.stacked (h : Tower option file level keys builders w ls) :
    Stacked (indexFull option) keys
      (builders.map fun builder => builder.entries.map IndexEntry.endKey) w := by
  induction h with
  | nil => exact .nil
  | cons hne hfills _ _ ih =>
      rw [List.map_cons, hfills.keys_eq]
      exact .cons hne ih

/-- Every leaf of the tower is a non-empty data block. -/
theorem Children.leaves_ne_nil {ρ : Type} [BlockReader ρ] {reader : ρ} {h : ℕ}
    {children : List (Bytes × Position)} {lss : List (List Leaf)}
    (hc : Children reader h children lss) : ∀ leaf ∈ lss.flatten, leaf.2 ≠ [] := by
  intro leaf hleaf
  obtain ⟨cl, hcl, hleaf⟩ := List.mem_flatten.mp hleaf
  obtain ⟨i, hi, rfl⟩ := List.getElem_of_mem hcl
  obtain ⟨_, hsub, -⟩ := hc.getElem? (List.getElem?_eq_getElem hi)
  exact (hsub.forall_leaves leaf hleaf).1

variable {ω : Type} [SstWriter ω] [LawfulSstWriter ω]

open LawfulSstWriter

/-- What a call on the levels from `level` upwards does to the file: `n` blocks more. -/
structure Grows (option : SstOption) (writer' : ω) (file file' : Bytes) (n : ℕ) : Prop where
  wrote : Wrote writer' file'
  append : ∃ more, file' = file ++ more
  length_eq : file'.length = file.length + option.blockSize * n
  bounded : file'.length ≤ isizeMax

omit [SstWriter ω] [LawfulSstWriter ω] in
/-- Blocks are written to a file of whole blocks. -/
theorem dvd_length_append {file' : Bytes} {n : ℕ} (h : option.blockSize ∣ file.length)
    (hlength : file'.length = file.length + option.blockSize * n) :
    option.blockSize ∣ file'.length :=
  hlength ▸ h.add (Dvd.intro n rfl)

/-- Writing one finished block makes it a subtree of the file. -/
theorem write_index_block {writer writer' : ω} {builder : IndexBlockBuilder}
    {keys : List Bytes} {lss : List (List Leaf)} {handle : Position} {level : ℕ}
    (hwrote : Wrote writer file) (hblocks : option.blockSize ∣ file.length)
    (hfills : builder.Fills option keys) (hne : keys ≠ []) (hsmall : SmallIndex option keys)
    (hc : Children (⟨file, option.blockSize⟩ : BlockGrid) level builder.children lss)
    (hwrite : SstWriter.writeBlock writer builder.finish.1 = .ok (handle, writer')) :
    Grows option writer' file (file ++ builder.finish.1) 1 ∧
      Subtree (⟨file ++ builder.finish.1, option.blockSize⟩ : BlockGrid) (level + 1) handle
        lss.flatten := by
  obtain ⟨hposition, hwrote', hbound⟩ := writeBlock_ok hwrote hwrite
  have hlength : builder.finish.1.length = option.blockSize := by
    rw [← hfills.option_eq]
    exact length_finishBlock _ _
  refine ⟨⟨hwrote', ⟨_, rfl⟩, by simp [hlength], hbound⟩, ?_⟩
  have hread : BlockReader.readBlock
      (⟨file ++ builder.finish.1, option.blockSize⟩ : BlockGrid) handle =
        .ok builder.finish.1 := by
    rw [readBlock_grid, hposition]
    exact ⟨hblocks, hlength ▸ blockAt_append_self file builder.finish.1⟩
  have hchildren : builder.children ≠ [] := by
    intro hnil
    have hentries : builder.entries = [] := by simpa [IndexBlockBuilder.children] using hnil
    have hkeys := hfills.keys_eq
    rw [hentries] at hkeys
    exact hne hkeys.symm
  rw [Subtree]
  exact ⟨_, _, lss, hread, hfills.indexBlock hsmall, hchildren, rfl, hc.mono_append _⟩

theorem Grows.trans {writer₁ writer₂ : ω} {file₀ file₁ file₂ : Bytes} {n m : ℕ}
    (h₁ : Grows option writer₁ file₀ file₁ n) (h₂ : Grows option writer₂ file₁ file₂ m) :
    Grows option writer₂ file₀ file₂ (n + m) := by
  obtain ⟨more₁, rfl⟩ := h₁.append
  obtain ⟨more₂, rfl⟩ := h₂.append
  refine ⟨h₂.wrote, ⟨more₁ ++ more₂, by simp⟩, ?_, h₂.bounded⟩
  rw [h₂.length_eq, h₁.length_eq, Nat.mul_add]
  omega

/-- What `add_index_entry` does at the first of the levels `builders`. -/
def AddsEntry (option : SstOption) (ω : Type) [SstWriter ω] [LawfulSstWriter ω]
    (builders : List IndexBlockBuilder) : Prop :=
  ∀ {file : Bytes} {level w : ℕ} {keys : List Bytes} {ls cl : List Leaf} {key : Bytes}
    {position : Position} {writer writer' : ω} {builders' : List IndexBlockBuilder},
    Tower option file level keys builders w ls → Wrote writer file →
    option.blockSize ∣ file.length → file.length ≤ isizeMax →
    SmallIndex option (keys ++ [key]) →
    Subtree (⟨file, option.blockSize⟩ : BlockGrid) level position cl →
    lastKeyOf cl = some key →
    addToLevels option builders writer key position = .ok (writer', builders') →
    ∃ file' n, Grows option writer' file file' n ∧
      Tower option file' level (keys ++ [key]) builders' (w + n) (ls ++ cl)

/-- Flushing a level moves all it covers into one entry of the level above. -/
theorem flushLevel_spec {builder builder' : IndexBlockBuilder}
    {above above' : List IndexBlockBuilder} {lss : List (List Leaf)} {writer writer' : ω}
    (hadds : AddsEntry option ω above) (hwrote : Wrote writer file)
    (hblocks : option.blockSize ∣ file.length) (hne : keys ≠ []) (hsmall : SmallIndex option keys)
    (hfills : builder.Fills option (pack (indexFull option) keys).current)
    (hc : Children (⟨file, option.blockSize⟩ : BlockGrid) level builder.children lss)
    (habove : Tower option file (level + 1) (promoted (indexFull option) keys) above w ls)
    (hflush : flushLevel (fun writer => addToLevels option above writer) writer builder above =
      .ok (writer', builder', above')) :
    builder' = IndexBlockBuilder.new option ∧ ∃ file' n, Grows option writer' file file' (1 + n) ∧
      Tower option file' (level + 1) (ends (indexFull option) keys) above' (w + n)
        (ls ++ lss.flatten) := by
  have hcurrent := current_ne_nil (indexFull option) hne
  obtain ⟨key, hkey, hends⟩ := exists_ends_eq (indexFull option) hne
  obtain ⟨hnonempty, last, hlast, rfl, hlastChild⟩ := hfills.exists_last hkey
  rw [flushLevel, hnonempty] at hflush
  simp only [Bool.false_eq_true, if_false, hlast, Option.map_some, Option.getD_some] at hflush
  obtain ⟨⟨handle, writer₁⟩, hwrite, hflush⟩ := bind_eq_ok.mp hflush
  obtain ⟨⟨writer₂, above₂⟩, hadd, hret⟩ := bind_eq_ok.mp hflush
  obtain ⟨rfl, rfl, rfl⟩ : writer₂ = writer' ∧ builder.finish.2 = builder' ∧ above₂ = above' := by
    simpa [pure, Except.pure] using hret
  obtain ⟨hgrows₁, hsub⟩ := write_index_block hwrote hblocks hfills hcurrent
    (hsmall.sublist (current_sublist keys)) hc hwrite
  obtain ⟨file', n, hgrows₂, htower⟩ := hadds (habove.append builder.finish.1) hgrows₁.wrote
    (dvd_length_append hblocks hgrows₁.length_eq) hgrows₁.bounded (hends ▸ hsmall.sublist (ends_sublist keys)) hsub
    (hc.lastKeyOf_flatten hlastChild) hadd
  refine ⟨?_, file', n, hgrows₁.trans hgrows₂, hends ▸ htower⟩
  rw [IndexBlockBuilder.finish, hfills.option_eq]

omit [LawfulSstWriter ω] in
theorem addToLevels_cons (builder : IndexBlockBuilder) (above : List IndexBlockBuilder)
    (writer : ω) (key : Bytes) (position : Position) :
    addToLevels option (builder :: above) writer key position =
      (if builder.wouldExceed key then
        flushLevel (fun writer => addToLevels option above writer) writer builder above
      else .ok (writer, builder, above)) >>= fun flushed =>
        flushed.2.1.add key position >>= fun builder => pure (flushed.1, builder :: flushed.2.2) := by
  rw [addToLevels]
  split <;> rfl

/-- Adding an entry at the bottom of a tower. -/
theorem addToLevels_spec (builders : List IndexBlockBuilder) : AddsEntry option ω builders := by
  induction builders with
  | nil =>
      intro file level w keys ls cl key position writer writer' builders' htower hwrote hblocks hbound hsmall
        hsub hkey hadd
      rw [addToLevels] at hadd
      obtain ⟨builder, hfirst, hret⟩ := bind_eq_ok.mp hadd
      obtain ⟨rfl, rfl⟩ : writer = writer' ∧ [builder] = builders' := by
        simpa [pure, Except.pure] using hret
      cases htower with
      | nil =>
          obtain ⟨hfills, hchildren⟩ := IndexBlockBuilder.fills_first hfirst
          refine ⟨file, 0, ⟨hwrote, ⟨[], by simp⟩, by simp, hbound⟩, ?_⟩
          have hc : Children (⟨file, option.blockSize⟩ : BlockGrid) level builder.children
              [cl] := by
            rw [hchildren]
            exact .cons ⟨hsub, hkey⟩ .nil
          simpa using Tower.cons (show [key] ≠ [] by simp) hfills hc (.nil : Tower option _ _ _ _ _ _)
  | cons builder above ih =>
      intro file level w keys ls cl key position writer writer' builders' htower hwrote hblocks hbound hsmall
        hsub hkey hadd
      rw [addToLevels_cons] at hadd
      obtain ⟨⟨writer₁, builder₁, above₁⟩, hflush, hadd⟩ := bind_eq_ok.mp hadd
      obtain ⟨builder₂, hput, hret⟩ := bind_eq_ok.mp hadd
      obtain ⟨rfl, rfl⟩ : writer₁ = writer' ∧ builder₂ :: above₁ = builders' := by
        simpa [pure, Except.pure] using hret
      cases htower with
      | @cons _ w _ _ _ ls lss hne hfills hc habove =>
          rw [IndexBlockBuilder.wouldExceed_eq hfills] at hflush
          cases hfull : indexFull option (pack (indexFull option) keys).current key with
          | true =>
              rw [hfull, if_pos rfl] at hflush
              obtain ⟨rfl, file', n, hgrows, habove'⟩ := flushLevel_spec ih hwrote hblocks hne
                (hsmall.sublist (List.sublist_append_left _ _)) hfills hc habove hflush
              obtain ⟨more, rfl⟩ := hgrows.append
              obtain ⟨hfills', hchildren⟩ := IndexBlockBuilder.fills_first hput
              have hc' : Children (⟨file ++ more, option.blockSize⟩ : BlockGrid) level
                  builder₂.children [cl] := by
                rw [hchildren]
                exact .cons ⟨hsub.mono (fun position _ => readBlock_grid_append more position),
                  hkey⟩ .nil
              have htower := Tower.cons (show keys ++ [key] ≠ [] by simp)
                (by rwa [pack_concat_full hne hfull]) hc'
                (by rwa [promoted_concat_full hne hfull])
              obtain ⟨last, -, hends⟩ := exists_ends_eq (indexFull option) hne
              refine ⟨_, 1 + n, hgrows, ?_⟩
              convert htower using 1
              · rw [promoted_concat_full hne hfull, hends, List.length_append,
                  List.length_singleton]
                omega
              · simp
          | false =>
              rw [hfull] at hflush
              obtain ⟨rfl, rfl, rfl⟩ : writer = writer₁ ∧ builder = builder₁ ∧ above = above₁ := by
                simpa using hflush
              obtain ⟨hfills', hchildren⟩ := hfills.add hfull hput
              have hc' : Children (⟨file, option.blockSize⟩ : BlockGrid) level
                  builder₂.children (lss ++ [cl]) := by
                rw [hchildren]
                exact List.rel_append hc (.cons ⟨hsub, hkey⟩ .nil)
              have htower := Tower.cons (show keys ++ [key] ≠ [] by simp)
                (by rwa [pack_concat_fits hfull]) hc' (by rwa [promoted_concat_fits hfull])
              refine ⟨file, 0, ⟨hwrote, ⟨[], by simp⟩, by simp, hbound⟩, ?_⟩
              convert htower using 1
              · rw [promoted_concat_fits hfull]
                rfl
              · simp

end Tower

end Todb
