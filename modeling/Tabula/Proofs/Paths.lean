import Tabula.Files.Path
import Tabula.Proofs.Pieces

/-!
# Paths and those above them

The parent of a path is a text of its own, and it is walked from the start like any other. What is
known of it is that it begins where the path begins and goes on along the same names, but stops
before the last of them. So the places that the paths above a path lead to are on the way to its
own.

* `Path.names_start_append` — the names of a path that is put together from a start and pieces.
* `Path.names_parent` — the parent of a path goes along its names, but not along all of them.
* `Path.names_of_mem_ancestors` — so do the parent of the parent, and those above.
-/

namespace Tabula.Path

variable {path parent ancestor : String} {first rest : List Char} {ps qs : List (List Char)}

/-! ### Names -/

/-- The pieces that are names. -/
def nonempty (ps : List (List Char)) : List (List Char) := ps.filter fun p => !p.isEmpty

/-- The names of a path are its pieces, without those that are empty. -/
theorem names_ofList (cs : List Char) :
    names (String.ofList cs) = (nonempty (pieces cs)).map String.ofList := by
  rw [names, String.toList_ofList]
  rfl

/-- Pieces without a slash come apart again when they are joined by slashes. -/
theorem nonempty_pieces_join (h : ∀ p ∈ ps, '/' ∉ p) :
    nonempty (pieces (join ps)) = nonempty ps := by
  cases ps with
  | nil => rfl
  | cons p ps => rw [pieces, join, Text.splitOn_intercalate (List.cons_ne_nil p ps) h]

/-- The pieces after the start of a path fit the start: a point is a start only if a slash or
nothing follows. -/
def FitsStart (first : List Char) (ps : List (List Char)) : Prop :=
  first = [] ∨ first = ['/'] ∨ first = ['.'] ∧ ∀ p ∈ ps.head?, p = []

/-- The names of a path are those of its pieces, behind the point that it may start with. -/
theorem names_start_append (hfirst : FitsStart first ps) (h : ∀ p ∈ ps, '/' ∉ p) :
    names (String.ofList (first ++ join ps)) =
      (nonempty [first.filter (· == '.')] ++ nonempty ps).map String.ofList := by
  rw [names_ofList]
  congr 1
  obtain rfl | rfl | ⟨rfl, hhead⟩ := hfirst
  · exact nonempty_pieces_join h
  · exact nonempty_pieces_join h
  · -- what follows the point is nothing, or a slash and the other pieces
    cases ps with
    | nil => rfl
    | cons p ps =>
      obtain rfl := hhead p rfl
      cases ps with
      | nil => rfl
      | cons q qs =>
        have hrest : nonempty (pieces (join (q :: qs))) = nonempty (q :: qs) :=
          nonempty_pieces_join fun p hp => h p (List.mem_cons_of_mem _ hp)
        have hjoin : join ([] :: q :: qs) = '/' :: join (q :: qs) :=
          Text.intercalate_cons_cons '/' [] q qs
        rw [hjoin]
        exact congrArg (['.'] :: ·) hrest

/-! ### Parents -/

/-- A path is its start and the pieces of what follows. -/
theorem start_spec (cs : List Char) : (start cs).1 ++ join (pieces (start cs).2) = cs ∧
    FitsStart (start cs).1 (pieces (start cs).2) ∧
      ((start cs).1 = [] → cs.head? ≠ some '/') := by
  rw [pieces, join, Text.intercalate_splitOn]
  -- the cases of the start: a slash, a point alone or before a slash, or none of these
  unfold start
  split
  · exact ⟨rfl, .inr (.inl rfl), nofun⟩
  · refine ⟨rfl, .inr (.inr ⟨rfl, ?_⟩), nofun⟩
    rintro p hp
    exact (Option.some.inj hp).symm
  · refine ⟨rfl, .inr (.inr ⟨rfl, ?_⟩), nofun⟩
    rintro p hp
    exact (Option.some.inj hp).symm
  · next hslash _ _ =>
    refine ⟨rfl, .inl rfl, fun _ => ?_⟩
    cases cs with
    | nil => nofun
    | cons c cs =>
      intro hc
      exact hslash cs (by rw [Option.some.inj hc])

/-- What is left without the idle pieces at the end is the front. -/
theorem dropIdle_isFront (ps : List (List Char)) : dropIdle ps <+: ps := List.rdropWhile_prefix _ ps

/-- What is left of pieces ends in a name, so that without it there is a name less. -/
theorem length_nonempty_dropLast (h : dropIdle ps ≠ []) :
    (nonempty (dropIdle ps).dropLast).length < (nonempty ps).length := by
  -- what is not idle is not empty
  have hlast : ¬((dropIdle ps).getLast h == [] || (dropIdle ps).getLast h == ['.']) = true :=
    List.rdropWhile_last_not (fun p => p == [] || p == ['.']) ps h
  have hname : nonempty [(dropIdle ps).getLast h] = [(dropIdle ps).getLast h] := by
    rw [nonempty, List.filter_cons_of_pos]
    · rfl
    · rw [Bool.not_eq_true', List.isEmpty_eq_false_iff]
      rintro hnil
      rw [hnil] at hlast
      exact hlast rfl
  have hsplit : nonempty (dropIdle ps) =
      nonempty (dropIdle ps).dropLast ++ [(dropIdle ps).getLast h] := by
    conv_lhs => rw [← List.dropLast_append_getLast h, nonempty, List.filter_append]
    exact congrArg (nonempty _ ++ ·) hname
  -- the idle pieces add nothing, and the last of the others is a name
  have hle : (nonempty (dropIdle ps)).length ≤ (nonempty ps).length :=
    ((dropIdle_isFront ps).filter _).length_le
  rw [hsplit, List.length_append] at hle
  exact hle

/-- The text of the front is the front of the text. -/
theorem join_isFront (h : qs <+: ps) : join qs <+: join ps := by
  obtain ⟨rs, rfl⟩ := h
  induction qs with
  | nil => exact List.nil_prefix
  | cons q qs ih =>
    -- whether another piece follows decides on the slash
    cases qs with
    | nil =>
      cases rs with
      | nil => exact List.prefix_refl _
      | cons r rs =>
        have hjoin : join (q :: r :: rs) = q ++ '/' :: join (r :: rs) :=
          Text.intercalate_cons_cons '/' q r rs
        rw [join, List.intercalate_singleton, List.singleton_append, hjoin]
        exact List.prefix_append q _
    | cons q' qs =>
      have hjoin (ps : List (List Char)) : join (q :: q' :: ps) = q ++ '/' :: join (q' :: ps) :=
        Text.intercalate_cons_cons '/' q q' ps
      rw [List.cons_append, List.cons_append, hjoin, hjoin, List.prefix_append_right_inj]
      exact List.cons_prefix_cons.2 ⟨rfl, ih⟩

/-- The parent of a path goes along its names, but not along all of them. -/
theorem names_parent (h : parent? path = some parent) : isAbsolute parent = isAbsolute path ∧
    names parent <+: names path ∧ (names parent).length < (names path).length := by
  obtain ⟨hjoin, hfits, hrelative⟩ := start_spec path.toList
  rw [parent?] at h
  generalize start path.toList = whole at h hjoin hfits hrelative
  obtain ⟨first, rest⟩ := whole
  have hslash : ∀ p ∈ pieces rest, '/' ∉ p := fun p hp => Text.notMem_of_mem_splitOn hp
  have hnames : names path =
      (nonempty [first.filter (· == '.')] ++ nonempty (pieces rest)).map String.ofList := by
    rw [← names_start_append hfits hslash, hjoin, String.ofList_toList]
  dsimp only at h
  split at h
  · -- nothing follows the point at the start, whose parent is the empty path
    split at h
    · next hfirst =>
      obtain rfl := Option.some.inj h
      subst hfirst
      refine ⟨?_, ?_, ?_⟩
      · rw [isAbsolute, isAbsolute, ← hjoin]
        rfl
      · exact List.nil_prefix
      · rw [hnames]
        exact Nat.succ_pos _
    · cases h
  · next hidle =>
    obtain rfl := Option.some.inj h
    let qs := dropIdle (dropIdle (pieces rest)).dropLast
    have hqs : qs <+: (dropIdle (pieces rest)).dropLast := dropIdle_isFront _
    have hfront : qs <+: pieces rest :=
      hqs.trans ((List.dropLast_prefix _).trans (dropIdle_isFront _))
    -- the pieces that are left begin like all of them, so they fit the same start
    have hfits' : FitsStart first qs := by
      refine hfits.imp_right fun h => h.imp_right fun h => ⟨h.1, fun p hp => h.2 p ?_⟩
      obtain ⟨rs, hrs⟩ := hfront
      rw [← hrs, List.head?_append, hp]
      rfl
    rw [hnames, names_start_append hfits' fun p hp => hslash p (hfront.subset hp)]
    refine ⟨?_, ?_, ?_⟩
    · -- the texts begin alike, unless the parent is empty and the path is relative
      have htext : first ++ join qs <+: path.toList := by
        rw [← hjoin, List.prefix_append_right_inj]
        exact join_isFront hfront
      rw [isAbsolute, isAbsolute, String.toList_ofList]
      cases hstart : first ++ join qs with
      | nil =>
        obtain ⟨rfl, -⟩ := List.append_eq_nil_iff.1 hstart
        exact (beq_eq_false_iff_ne.2 (hrelative rfl)).symm
      | cons c cs =>
        obtain ⟨tail, htail⟩ := htext
        rw [← htail, hstart]
        rfl
    · exact ((List.prefix_append_right_inj _).2 (hfront.filter _)).map _
    · rw [List.length_map, List.length_map, List.length_append, List.length_append]
      exact Nat.add_lt_add_left
        ((hqs.filter _).length_le.trans_lt (length_nonempty_dropLast hidle)) _

/-- So does everything above the path, and the path itself goes along all of them. -/
theorem names_of_mem_ancestors (h : ancestor ∈ ancestors path) :
    isAbsolute ancestor = isAbsolute path ∧ names ancestor <+: names path := by
  rw [ancestors] at h
  generalize path.length + 1 = fuel at h
  induction fuel generalizing path with
  | zero => cases h
  | succ fuel ih =>
    obtain rfl | h := List.mem_cons.1 h
    · exact ⟨rfl, List.prefix_refl _⟩
    · -- a path above is the path, or one above its parent
      cases hparent : parent? path with
      | none =>
        rw [hparent] at h
        cases h
      | some parent =>
        rw [hparent] at h
        obtain ⟨habsolute, hfront, -⟩ := names_parent hparent
        obtain ⟨habsolute', hfront'⟩ := ih h
        exact ⟨habsolute'.trans habsolute, hfront'.trans hfront⟩

end Tabula.Path
