import Tabula.Proofs.Outcome
import Tabula.Schema

/-!
# The schema as a registry of names

A schema is grown column by column, and each step writes the list of columns and the positions of
their names separately. Both say the same, and a schema is the list it was made of:

* `Schema.index?_eq_some_iff` — a name is noted at the one position where it stands.
* `Schema.typeOf?_eq_some_iff` — a name has the type of its column.
* `Schema.ofColumns_eq_ok_iff` — the schema of a list has exactly the columns of the list.
* `Schema.exists_ofColumns` — there is one for every list of distinct names.
* `FirstRepeated`, `Schema.ofColumns_eq_error_iff` — any other list is refused for the earliest name
  that occurred before.
* `OnceInOrder`, `Schema.onceInOrder_missing` — which of the requested names are missing.
* `Schema.Registers`, `Schema.faithful_registry` — a schema answers as the list it was made of.
-/

namespace Tabula

/-- In a list of pairs whose keys are pairwise unequal, a lookup finds exactly the pairs with an
equal key. -/
theorem lookup_eq_some_iff {α β : Type} [BEq α] [PartialEquivBEq α] {l : List (α × β)}
    (h : l.Pairwise fun p q => (p.1 == q.1) = false) {k : α} {b : β} :
    l.lookup k = some b ↔ ∃ k', (k', b) ∈ l ∧ (k == k') = true := by
  -- the first pair either has an equal key and is the only one, or it can be left out
  induction l with
  | nil => simp
  | cons p l ih =>
    obtain ⟨k', b'⟩ := p
    obtain ⟨hp, hl⟩ := List.pairwise_cons.1 h
    rw [List.lookup_cons]
    cases hk : k == k' with
    | true =>
      -- no later key is equal to the first one, so none is equal to `k`
      have hn : ∀ k'', (k'', b) ∈ l → (k == k'') = false := by
        intro k'' hm
        rw [BEq.congr_left hk]
        exact hp _ hm
      refine ⟨?_, ?_⟩
      · intro hb
        obtain rfl := Option.some.inj hb
        exact ⟨k', List.mem_cons_self, hk⟩
      · rintro ⟨k'', hm, hk''⟩
        obtain he | hm := List.mem_cons.1 hm
        · obtain ⟨-, rfl⟩ := Prod.mk.inj he
          rfl
        · rw [hn k'' hm] at hk''
          cases hk''
    | false =>
      -- the key is another one, so the search goes on behind the pair
      show l.lookup k = some b ↔ _
      rw [ih hl]
      refine ⟨?_, ?_⟩
      · rintro ⟨k'', hm, hk''⟩
        exact ⟨k'', List.mem_cons_of_mem _ hm, hk''⟩
      · rintro ⟨k'', hm, hk''⟩
        obtain he | hm := List.mem_cons.1 hm
        · obtain ⟨rfl, -⟩ := Prod.mk.inj he
          rw [hk] at hk''
          cases hk''
        · exact ⟨k'', hm, hk''⟩

/-- In a list of pairs with distinct keys, a lookup finds exactly the pairs of the list. -/
theorem lookup_eq_some_iff_mem {α β : Type} [BEq α] [LawfulBEq α] {l : List (α × β)}
    (h : (l.map Prod.fst).Nodup) {k : α} {b : β} : l.lookup k = some b ↔ (k, b) ∈ l := by
  have hp : l.Pairwise fun p q => (p.1 == q.1) = false :=
    (List.pairwise_map.1 h).imp fun hne => beq_eq_false_iff_ne.2 hne
  rw [lookup_eq_some_iff hp]
  refine ⟨?_, ?_⟩
  · rintro ⟨k', hm, hk⟩
    rwa [eq_of_beq hk]
  · intro hm
    exact ⟨k, hm, beq_self_eq_true k⟩

/-- A key is not found exactly if it is not there. -/
theorem lookup_eq_none_iff_notMem {α β : Type} [BEq α] [LawfulBEq α] {l : List (α × β)} {k : α} :
    l.lookup k = none ↔ k ∉ l.map Prod.fst := by
  rw [List.lookup_eq_none_iff, List.mem_map]
  refine ⟨?_, ?_⟩
  · rintro h ⟨p, hp, rfl⟩
    exact absurd rfl (bne_iff_ne.1 (h p hp))
  · intro h p hp
    refine bne_iff_ne.2 ?_
    rintro rfl
    exact h ⟨p, hp, rfl⟩

theorem exists_lookup_eq_some_iff {α β : Type} [BEq α] [LawfulBEq α] {l : List (α × β)} {k : α} :
    (∃ b, l.lookup k = some b) ↔ k ∈ l.map Prod.fst := by
  rw [← Option.ne_none_iff_exists', Ne, lookup_eq_none_iff_notMem, not_not]

/-- A lookup from the back finds the last pair with the key. -/
theorem lookup_reverse_eq_some_iff {α β : Type} [BEq α] [LawfulBEq α] {l : List (α × β)} {k : α}
    {b : β} : l.reverse.lookup k = some b ↔
      ∃ l₁ l₂, l = l₁ ++ (k, b) :: l₂ ∧ k ∉ l₂.map Prod.fst := by
  rw [List.lookup_eq_some_iff]
  -- the first pair from behind is the last one, and what was skipped comes after it
  refine ⟨?_, ?_⟩
  · rintro ⟨l₁, l₂, hl, hne⟩
    refine ⟨l₂.reverse, l₁.reverse, ?_, ?_⟩
    · rw [← List.reverse_reverse l, hl, List.reverse_append, List.reverse_cons, List.append_assoc,
        List.singleton_append]
    · intro hk
      obtain ⟨p, hp, rfl⟩ := List.mem_map.1 hk
      exact absurd rfl (bne_iff_ne.1 (hne p (List.mem_reverse.1 hp)))
  · rintro ⟨l₁, l₂, rfl, hk⟩
    refine ⟨l₂.reverse, l₁.reverse, ?_, ?_⟩
    · rw [List.reverse_append, List.reverse_cons, List.append_assoc, List.singleton_append]
    · intro p hp
      refine bne_iff_ne.2 ?_
      rintro rfl
      exact hk (List.mem_map_of_mem (List.mem_reverse.1 hp))

/-! ### First occurrences -/

/-- The second list has those elements of the first one that satisfy the condition, each once and in
the order in which they first occur. -/
structure OnceInOrder {α : Type} [BEq α] (p : α → Prop) (xs ys : List α) : Prop where
  nodup : ys.Nodup
  mem_iff : ∀ x, x ∈ ys ↔ x ∈ xs ∧ p x
  ordered : ys.Pairwise fun x y => xs.idxOf x < xs.idxOf y

section

variable {α : Type} [BEq α] [LawfulBEq α]

/-- Without the later occurrences of its elements a list keeps the order in which they occur
first. -/
theorem pairwise_idxOf_eraseDups (p : α → Bool) (xs : List α) :
    (xs.filter p).eraseDups.Pairwise fun x y => xs.idxOf x < xs.idxOf y := by
  induction xs generalizing p with
  | nil => exact .nil
  | cons a xs ih =>
    -- behind one more element everything else occurs one place later
    have hlater : ∀ {y}, y ≠ a → (a :: xs).idxOf y = xs.idxOf y + 1 :=
      fun hy => List.idxOf_cons_ne xs (Ne.symm hy)
    have hshift : ∀ {ys : List α}, a ∉ ys → ys.Pairwise (fun x y => xs.idxOf x < xs.idxOf y) →
        ys.Pairwise fun x y => (a :: xs).idxOf x < (a :: xs).idxOf y := by
      intro ys ha hys
      refine hys.imp_of_mem fun {x y} hx hy hxy => ?_
      rw [hlater (fun h => ha (h ▸ hx)), hlater (fun h => ha (h ▸ hy))]
      omega
    by_cases hp : p a = true
    · rw [List.filter_cons_of_pos hp, List.eraseDups_cons, List.filter_filter,
        List.pairwise_cons]
      have hne : ∀ y ∈ (xs.filter fun x => !(x == a) && p x).eraseDups, y ≠ a := by
        intro y hy
        simp only [List.mem_eraseDups, List.mem_filter, Bool.and_eq_true, Bool.not_eq_true',
          beq_eq_false_iff_ne] at hy
        exact hy.2.1
      refine ⟨fun y hy => ?_, hshift (fun ha => hne a ha rfl) (ih _)⟩
      rw [List.idxOf_cons_self, hlater (hne y hy)]
      exact Nat.succ_pos _
    · rw [List.filter_cons_of_neg hp]
      refine hshift (fun ha => ?_) (ih p)
      rw [List.mem_eraseDups, List.mem_filter] at ha
      exact hp ha.2

/-- The elements with a property are listed once each, in the order in which they occur first. -/
theorem onceInOrder_eraseDups (p : α → Bool) (xs : List α) :
    OnceInOrder (fun x => p x = true) xs (xs.filter p).eraseDups := by
  have hordered := pairwise_idxOf_eraseDups p xs
  refine ⟨hordered.imp ?_, fun x => ?_, hordered⟩
  · rintro x y hxy rfl
    exact lt_irrefl _ hxy
  · rw [List.mem_eraseDups, List.mem_filter]

end

/-- The element is the first one of the list with the property. -/
structure FirstWith {α : Type} (p : α → Prop) (xs : List α) (x : α) : Prop where
  holds : p x
  split : ∃ before after, xs = before ++ x :: after ∧ ∀ y ∈ before, ¬p y

/-- A search finds the first element with the property. -/
theorem find?_eq_some_iff_firstWith {α : Type} {p : α → Bool} {xs : List α} {x : α} :
    xs.find? p = some x ↔ FirstWith (fun y => p y = true) xs x := by
  simp only [List.find?_eq_some_iff_append, Bool.not_eq_true', ← Bool.not_eq_true]
  exact ⟨fun ⟨hx, hsplit⟩ => ⟨hx, hsplit⟩, fun h => ⟨h.holds, h.split⟩⟩

/-- There is a first element with a property as soon as there is any. -/
theorem exists_firstWith_iff {α : Type} {p : α → Prop} {xs : List α} :
    (∃ x, FirstWith p xs x) ↔ ∃ x ∈ xs, p x := by
  classical
  constructor
  · rintro ⟨x, hx, before, after, rfl, -⟩
    exact ⟨x, List.mem_append_right _ List.mem_cons_self, hx⟩
  · intro h
    have hfind : (xs.find? fun x => decide (p x)).isSome = true := by simpa using h
    obtain ⟨x, hx⟩ := Option.isSome_iff_exists.1 hfind
    exact ⟨x, by simpa using find?_eq_some_iff_firstWith.1 hx⟩

/-- The element is the first one of the list that occurred before. -/
def FirstRepeated {α : Type} (xs : List α) (x : α) : Prop :=
  ∃ before after, xs = before ++ x :: after ∧ x ∈ before ∧ before.Nodup

/-- Some element is the first to be repeated exactly if the elements are not distinct. -/
theorem exists_firstRepeated_iff {α : Type} {xs : List α} :
    (∃ x, FirstRepeated xs x) ↔ ¬xs.Nodup := by
  constructor
  · rintro ⟨x, before, after, rfl, hx, -⟩ hnodup
    exact (List.nodup_append.1 hnodup).2.2 x hx x List.mem_cons_self rfl
  · -- from the back: the last element is the first repetition only if there is none before it
    induction xs using List.reverseRecOn with
    | nil => simp
    | append_singleton xs x ih =>
      intro h
      by_cases hxs : xs.Nodup
      · have hx : x ∈ xs := by
          by_contra hx
          exact h (List.concat_eq_append ▸ hxs.concat hx)
        exact ⟨x, xs, [], rfl, hx, hxs⟩
      · obtain ⟨y, before, after, rfl, hy⟩ := ih hxs
        exact ⟨y, before, after ++ [x], by simp, hy⟩

namespace Schema

variable {s t : Schema} {name : String} {type : ColumnType} {requested : List String}

/-- The columns determine a schema: the positions are noted after them. -/
theorem ext_columns (h : s.columns = t.columns) : s = t := by
  obtain ⟨columns, positions, _, hp⟩ := s
  obtain ⟨columns', positions', _, hp'⟩ := t
  obtain rfl : columns = columns' := h
  obtain rfl : positions = positions' := hp.trans hp'.symm
  rfl

/-! ### Names and positions -/

theorem nodup_noted (s : Schema) : (s.positions.map Prod.fst).Nodup := by
  rw [s.positions_eq, List.map_reverse, List.nodup_reverse, List.zipIdx_map_fst]
  exact s.nodup

/-- A name is noted at the position where it stands, and nothing else is noted. -/
theorem index?_eq_some_iff {i : Nat} : s.index? name = some i ↔ s.names[i]? = some name := by
  -- the positions are the numbered names, so a pair of them is a name with its number
  rw [index?, lookup_eq_some_iff_mem s.nodup_noted, s.positions_eq, List.mem_reverse,
    List.mem_zipIdx_iff_getElem?, names]

/-- A type is found under a name exactly if there is a column of this name and type. -/
theorem typeOf?_eq_some_iff : s.typeOf? name = some type ↔ (name, type) ∈ s.columns := by
  rw [typeOf?, Option.bind_eq_some_iff]
  simp only [index?_eq_some_iff, names, types, List.getElem?_map, Option.map_eq_some_iff]
  refine ⟨?_, ?_⟩
  · rintro ⟨i, ⟨c, hc, rfl⟩, d, hd, rfl⟩
    -- the name and the type are looked up at one position, so they are of one column
    obtain rfl : c = d := Option.some.inj (hc.symm.trans hd)
    exact List.mem_of_getElem? hc
  · intro h
    obtain ⟨i, hi, hc⟩ := List.getElem_of_mem h
    have hs : s.columns[i]? = some (name, type) := List.getElem?_eq_some_iff.2 ⟨hi, hc⟩
    exact ⟨i, ⟨_, hs, rfl⟩, _, hs, rfl⟩

/-- The same for the type that has to exist. -/
theorem typeOf_eq_ok_iff : s.typeOf name = .ok type ↔ (name, type) ∈ s.columns := by
  rw [← typeOf?_eq_some_iff, typeOf]
  cases s.typeOf? name with
  | none => simp
  | some u => simp

/-- A name has the index of the place where it stands. -/
theorem index_eq_ok_iff {i : Nat} : s.index name = .ok i ↔ s.names[i]? = some name := by
  rw [← index?_eq_some_iff, index]
  cases s.index? name with
  | none => simp
  | some j => simp

/-- A name that no column has is missing, whatever is asked about it. -/
theorem typeOf_of_notMem (h : name ∉ s.names) :
    s.typeOf name = .error (.missingColumns [name]) := by
  have hn : s.typeOf? name = none := by
    rw [Option.eq_none_iff_forall_not_mem]
    intro type ht
    exact h (List.mem_map_of_mem (typeOf?_eq_some_iff.1 ht))
  rw [typeOf, hn]

/-- Asking for the index of a name that is absent is reported with this name. -/
theorem index_of_notMem (h : name ∉ s.names) : s.index name = .error (.missingColumns [name]) := by
  have hn : s.index? name = none := by
    rw [Option.eq_none_iff_forall_not_mem]
    intro i hi
    exact h (List.mem_of_getElem? (index?_eq_some_iff.1 hi))
  rw [index, hn]

/-! ### Requested names -/

/-- The missing names are those requested ones that do not stand in the schema, each once. -/
theorem missing_eq : s.missing requested = (requested.filter fun n => n ∉ s.names).eraseDups := by
  rw [missing]
  congr 1
  refine List.filter_congr fun n _ => ?_
  rw [Bool.eq_iff_iff, Bool.not_eq_true', Bool.eq_false_iff, Ne, has_iff_mem_names,
    decide_eq_true_eq]

/-- Missing names are told once each, in the order in which they were requested first. -/
theorem onceInOrder_missing :
    OnceInOrder (fun n => n ∉ s.names) requested (s.missing requested) := by
  have h := onceInOrder_eraseDups (fun n => decide (n ∉ s.names)) requested
  simp only [decide_eq_true_eq] at h
  rwa [missing_eq]

/-- A request for a name that is not there is refused with all of these. -/
theorem require_of_absent (h : ∃ n ∈ requested, n ∉ s.names) :
    s.require requested = .error (.missingColumns (s.missing requested)) := by
  obtain ⟨n, hn, habsent⟩ := h
  have hmem : n ∈ s.missing requested := (onceInOrder_missing.mem_iff n).2 ⟨hn, habsent⟩
  rw [require]
  split
  · next hnil =>
    rw [hnil] at hmem
    cases hmem
  · rfl

/-- Requested names are accepted exactly if every one of them is there. -/
theorem require_eq_ok_iff : s.require requested = .ok () ↔ ∀ n ∈ requested, n ∈ s.names := by
  constructor
  · intro h n hn
    by_contra habsent
    rw [require_of_absent ⟨n, hn, habsent⟩] at h
    cases h
  · intro h
    -- there is nothing to report
    have hnil : s.missing requested = [] := by
      rw [List.eq_nil_iff_forall_not_mem]
      intro n hn
      obtain ⟨hmem, habsent⟩ := (onceInOrder_missing.mem_iff n).1 hn
      exact habsent (h n hmem)
    rw [require, hnil]

/-! ### Growing a schema -/

/-- One more column is refused exactly if its name is taken, and is put at the end otherwise. -/
theorem add_eq_ok_iff :
    s.add name type = .ok t ↔ name ∉ s.names ∧ t.columns = s.columns ++ [(name, type)] := by
  rw [add]
  -- the name is looked for among those that are noted, which are the names of the columns
  split
  · next h => simp [s.has_iff_mem_names.1 h]
  · next h =>
    have hn : name ∉ s.names := fun hm => h (s.has_iff_mem_names.2 hm)
    rw [Except.ok.injEq]
    refine ⟨?_, ?_⟩
    · rintro rfl
      exact ⟨hn, rfl⟩
    · intro ht
      exact ext_columns ht.2.symm

/-- A name that is taken is refused. -/
theorem add_of_mem (h : name ∈ s.names) : s.add name type = .error (.duplicateColumn name) := by
  rw [add, dif_pos (s.has_iff_mem_names.2 h)]

/-- A new name is accepted, and its column becomes the last one. -/
theorem exists_add (type : ColumnType) (h : name ∉ s.names) :
    ∃ t, s.add name type = .ok t ∧ t.columns = s.columns ++ [(name, type)] := by
  rw [add, dif_neg fun hs => h (s.has_iff_mem_names.1 hs)]
  exact ⟨_, rfl, rfl⟩

/-- Growing a schema by several columns puts them behind its own. -/
theorem foldlM_add_eq_ok {columns : List (String × ColumnType)}
    (h : columns.foldlM (fun s (n, u) => s.add n u) s = .ok t) :
    t.columns = s.columns ++ columns := by
  -- the schema grows on the way, so it is part of the induction
  induction columns generalizing s with
  | nil =>
    obtain rfl : s = t := Except.ok.inj h
    simp
  | cons c columns ih =>
    rw [List.foldlM_cons] at h
    obtain ⟨u, hu, h⟩ := bind_eq_ok_iff.1 h
    rw [ih h, (add_eq_ok_iff.1 hu).2, List.append_assoc, List.singleton_append]

/-- Columns with new and distinct names can all be added. -/
theorem exists_foldlM_add {columns : List (String × ColumnType)}
    (h : ((s.columns ++ columns).map Prod.fst).Nodup) :
    ∃ t, columns.foldlM (fun s (n, u) => s.add n u) s = .ok t := by
  induction columns generalizing s with
  | nil => exact ⟨s, rfl⟩
  | cons c columns ih =>
    obtain ⟨n, u⟩ := c
    -- the first name is new, and the rest are new for the schema that it leads to
    have hn : n ∉ s.names := by
      rw [List.map_append, List.nodup_append] at h
      exact fun hm => h.2.2 n hm n (by simp) rfl
    obtain ⟨t, ht, hc⟩ := exists_add u hn
    obtain ⟨v, hv⟩ := ih (s := t) (by rwa [hc, List.append_assoc, List.singleton_append])
    rw [List.foldlM_cons]
    exact ⟨v, bind_eq_ok_iff.2 ⟨t, ht, hv⟩⟩

/-- A schema stops growing at the first column whose name is taken, be it by one of its own columns
or by one that was added before. -/
theorem foldlM_add_eq_error_iff {columns : List (String × ColumnType)} {e : Error} :
    columns.foldlM (fun s (n, u) => s.add n u) s = .error e ↔
      ∃ before c after, columns = before ++ c :: after ∧
        c.1 ∈ (s.columns ++ before).map Prod.fst ∧ ((s.columns ++ before).map Prod.fst).Nodup ∧
        e = .duplicateColumn c.1 := by
  induction columns generalizing s with
  | nil => simp
  | cons d columns ih =>
    obtain ⟨n, u⟩ := d
    rw [List.foldlM_cons]
    dsimp only
    by_cases hn : n ∈ s.names
    · -- the very first column is refused
      rw [add_of_mem hn, error_bind, Except.error.injEq]
      constructor
      · rintro rfl
        refine ⟨[], (n, u), columns, rfl, ?_, ?_, rfl⟩
        · rw [List.append_nil]
          exact hn
        · rw [List.append_nil]
          exact s.nodup
      · rintro ⟨before, c, after, hsplit, -, hnodup, rfl⟩
        cases before with
        | nil =>
          obtain ⟨rfl, -⟩ := List.cons.inj hsplit
          rfl
        | cons b before =>
          -- a column before the one that is refused would be this one, whose name is taken
          obtain ⟨rfl, -⟩ := List.cons.inj hsplit
          rw [List.map_append, List.nodup_append] at hnodup
          exact absurd rfl (hnodup.2.2 n hn n (by simp))
    · -- the first column is accepted, and the earliest refusal is one of the columns after it
      obtain ⟨t, ht, hcolumns⟩ := exists_add u hn
      have hassoc : ∀ before, t.columns ++ before = s.columns ++ (n, u) :: before := by
        intro before
        rw [hcolumns, List.append_assoc, List.singleton_append]
      rw [ht, ok_bind, ih]
      simp only [hassoc]
      constructor
      · rintro ⟨before, c, after, rfl, hc⟩
        exact ⟨(n, u) :: before, c, after, rfl, hc⟩
      · rintro ⟨before, c, after, hsplit, hc⟩
        cases before with
        | nil =>
          obtain ⟨rfl, -⟩ := List.cons.inj hsplit
          rw [List.append_nil] at hc
          exact absurd hc.1 hn
        | cons b before =>
          obtain ⟨rfl, rfl⟩ := List.cons.inj hsplit
          exact ⟨before, c, after, rfl, hc⟩

/-- The schema of a list of columns is the one that has these columns. -/
theorem ofColumns_eq_ok_iff {columns : List (String × ColumnType)} :
    ofColumns columns = .ok s ↔ s.columns = columns := by
  refine ⟨?_, ?_⟩
  · intro h
    simpa [empty] using foldlM_add_eq_ok h
  · rintro rfl
    -- the columns of a schema can be added one by one, which gives the schema back
    have hd : ((empty.columns ++ s.columns).map Prod.fst).Nodup := by simpa [empty] using s.nodup
    obtain ⟨t, ht⟩ := exists_foldlM_add hd
    have hts : t.columns = s.columns := by simpa [empty] using foldlM_add_eq_ok ht
    rwa [ext_columns hts] at ht

/-- There is a schema for every list of columns whose names are distinct. -/
theorem exists_ofColumns {columns : List (String × ColumnType)}
    (h : (columns.map Prod.fst).Nodup) : ∃ s, ofColumns columns = .ok s ∧ s.columns = columns :=
  ⟨⟨columns, _, h, rfl⟩, ofColumns_eq_ok_iff.2 rfl, rfl⟩

/-- A list of columns is refused exactly for the earliest name that occurred before. -/
theorem ofColumns_eq_error_iff {columns : List (String × ColumnType)} {e : Error} :
    ofColumns columns = .error e ↔
      ∃ name, FirstRepeated (columns.map Prod.fst) name ∧ e = .duplicateColumn name := by
  rw [ofColumns, foldlM_add_eq_error_iff]
  simp only [empty, List.nil_append]
  constructor
  · rintro ⟨before, c, after, rfl, hmem, hnodup, rfl⟩
    exact ⟨c.1, ⟨before.map Prod.fst, after.map Prod.fst, by simp, hmem, hnodup⟩, rfl⟩
  · rintro ⟨name, ⟨before, after, hsplit, hmem, hnodup⟩, rfl⟩
    -- the names are split, and with them the columns
    obtain ⟨cs, ds, rfl, rfl, hds⟩ := List.map_eq_append_iff.1 hsplit
    obtain ⟨c, rest, rfl, rfl, -⟩ := List.map_eq_cons_iff.1 hds
    exact ⟨cs, c, rest, rfl, hmem, hnodup, rfl⟩

/-! ### The registry -/

/-- The schema answers every question about names as the list of columns does. -/
structure Registers (s : Schema) (columns : List (String × ColumnType)) : Prop where
  zip_eq : s.names.zip s.types = columns
  has_iff : ∀ name, s.has name = true ↔ name ∈ columns.map Prod.fst
  index_isOk_iff : ∀ name, (∃ i, s.index name = .ok i) ↔ name ∈ columns.map Prod.fst
  typeOf_isOk_iff : ∀ name, (∃ type, s.typeOf name = .ok type) ↔ name ∈ columns.map Prod.fst
  absent : ∀ name, name ∉ columns.map Prod.fst →
    s.index name = .error (.missingColumns [name]) ∧
    s.typeOf name = .error (.missingColumns [name])
  /-- The position that is found is the only one at which the name stands. -/
  index_unique : ∀ name i, s.index name = .ok i →
    ∀ j, (columns.map Prod.fst)[j]? = some name ↔ j = i
  typeOf_index : ∀ name i, s.index name = .ok i →
    ∃ type, columns[i]? = some (name, type) ∧ s.typeOf name = .ok type
  names_index : ∀ name i, s.index name = .ok i → s.names[i]? = some name
  index_names : ∀ i (h : i < s.names.length), s.index s.names[i] = .ok i
  missing : ∀ requested,
    OnceInOrder (fun name => name ∉ columns.map Prod.fst) requested (s.missing requested)

theorem zip_names_types (s : Schema) : s.names.zip s.types = s.columns := by
  rw [names, types, List.zip_map']
  exact List.map_id _

/-- The type of a name is the one at its position. -/
theorem exists_typeOf_of_index {i : Nat} (h : s.index name = .ok i) :
    ∃ type, s.columns[i]? = some (name, type) ∧ s.typeOf name = .ok type := by
  rw [index_eq_ok_iff, names, List.getElem?_map, Option.map_eq_some_iff] at h
  obtain ⟨⟨n, type⟩, hc, rfl⟩ := h
  exact ⟨type, hc, typeOf_eq_ok_iff.2 (List.mem_of_getElem? hc)⟩

/-- A schema answers as its own list of columns does. -/
theorem registers_columns (s : Schema) : s.Registers s.columns where
  zip_eq := s.zip_names_types
  has_iff := fun _ => s.has_iff_mem_names
  index_isOk_iff := fun name => by
    simp only [index_eq_ok_iff]
    exact List.mem_iff_getElem?.symm
  typeOf_isOk_iff := fun name => by simp [typeOf_eq_ok_iff]
  absent := fun _ h => ⟨index_of_notMem h, typeOf_of_notMem h⟩
  index_unique := fun name i hi j => by
    -- a name is found at every position at which it stands
    constructor
    · intro hj
      have hij : Except.ok j = Except.ok i := (index_eq_ok_iff.2 hj).symm.trans hi
      exact Except.ok.inj hij
    · rintro rfl
      exact index_eq_ok_iff.1 hi
  typeOf_index := fun _ _ => exists_typeOf_of_index
  names_index := fun _ _ => index_eq_ok_iff.1
  index_names := fun _ hi => index_eq_ok_iff.2 (List.getElem?_eq_getElem hi)
  missing := fun _ => onceInOrder_missing

/-- Schemas are compared by their columns. The noted positions follow from these and never
decide. -/
theorem beq_iff_columns_eq : (s == t) = true ↔ s.columns = t.columns := by
  rw [beq_iff_eq]
  constructor
  · rintro rfl
    rfl
  · exact ext_columns

/-- There is a schema of a list of columns exactly if no two names are equal; otherwise the earliest
name that occurred before is reported. The schema gives the list back, and answers as it does. Two
schemas are equal exactly if their lists are, whatever else they note. -/
theorem faithful_registry :
    (∀ columns : List (String × ColumnType),
      ((∃ s, ofColumns columns = .ok s) ↔ (columns.map Prod.fst).Nodup) ∧
      (∀ e, ofColumns columns = .error e ↔
        ∃ name, FirstRepeated (columns.map Prod.fst) name ∧ e = .duplicateColumn name) ∧
      ∀ s, ofColumns columns = .ok s → s.Registers columns) ∧
    ∀ s t : Schema, (s == t) = true ↔ s.names.zip s.types = t.names.zip t.types := by
  refine ⟨fun columns => ⟨⟨?_, ?_⟩, fun e => ofColumns_eq_error_iff, ?_⟩, fun s t => ?_⟩
  · rintro ⟨s, hs⟩
    exact ofColumns_eq_ok_iff.1 hs ▸ s.nodup
  · intro hnodup
    obtain ⟨s, hs, -⟩ := exists_ofColumns hnodup
    exact ⟨s, hs⟩
  · intro s hs
    exact ofColumns_eq_ok_iff.1 hs ▸ s.registers_columns
  · rw [zip_names_types, zip_names_types]
    exact beq_iff_columns_eq

/-- Two columns, and a third one with the name of the first. -/
theorem faithful_registry_twice :
    (∃ s, ofColumns [("a", .integer), ("b", .string)] = .ok s ∧ s.Registers
      [("a", .integer), ("b", .string)]) ∧
    ofColumns [("a", .integer), ("b", .string), ("a", .float)] = .error (.duplicateColumn "a") := by
  obtain ⟨hlists, -⟩ := faithful_registry
  obtain ⟨hexists, -, hregisters⟩ := hlists [("a", .integer), ("b", .string)]
  obtain ⟨s, hs⟩ := hexists.2 (by decide)
  exact ⟨⟨s, hs, hregisters s hs⟩,
    ((hlists _).2.1 _).2 ⟨"a", ⟨["a", "b"], [], rfl, by decide, by decide⟩, rfl⟩⟩

end Schema

end Tabula
