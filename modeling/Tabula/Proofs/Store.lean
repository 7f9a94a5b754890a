import Tabula.Encoding.Store
import Tabula.Proofs.Order
import Tabula.Proofs.Registry

/-!
# What a store remembers

A store keeps its names in ascending order, but what it finds under a name does not depend on that:
it is the mapping that was put in last.

* `MappingStore.get?_insert` — storing a mapping changes what is found under its own name only.
* `MappingStore.get?_insertAll` — of several mappings for one name the last one stays.
* `MappingStore.mem_names_iff`, `MappingStore.isEmpty_eq_false_iff` — the names are those under
  which something is found.
* `MappingStore.Ordered` — they ascend, in whatever order they were stored.
-/

namespace Tabula

namespace MappingStore

variable {s : MappingStore} {m : Mapping} {name n : String} {es : List (String × Mapping)}

/-! ### Lookups -/

/-- What was put in under a name is found there. -/
theorem lookup_insertByKey_self :
    (insertByKey compare Prod.fst (name, m) es).lookup name = some m := by
  induction es with
  | nil => exact List.lookup_cons_self
  | cons e rest ih =>
    obtain ⟨k, l⟩ := e
    rw [insertByKey]
    split
    · exact List.lookup_cons_self
    · exact List.lookup_cons_self
    · next hc =>
      -- the entry is somewhere behind the head, so the head has another name
      have hne : name ≠ k := by
        rintro rfl
        rw [Std.ReflOrd.compare_self] at hc
        cases hc
      rw [List.lookup_cons, beq_eq_false_iff_ne.2 hne]
      exact ih

/-- What is found under another name has not changed. -/
theorem lookup_insertByKey_ne (h : n ≠ name) :
    (insertByKey compare Prod.fst (name, m) es).lookup n = es.lookup n := by
  have hn : (n == name) = false := beq_eq_false_iff_ne.2 h
  induction es with
  | nil => rw [insertByKey, List.lookup_cons, hn]
  | cons e rest ih =>
    obtain ⟨k, l⟩ := e
    rw [insertByKey]
    split
    · rw [List.lookup_cons, hn]
    · next hc =>
      -- only an entry of the same name gives way
      obtain rfl : name = k := Std.LawfulEqOrd.eq_of_compare hc
      rw [List.lookup_cons, List.lookup_cons, hn]
    · rw [List.lookup_cons, List.lookup_cons, ih]

/-- Storing a mapping changes what is found under its own name only. -/
theorem get?_insert : (s.insert name m).get? n = if n = name then some m else s.get? n := by
  split
  · next h =>
    subst h
    exact lookup_insertByKey_self
  · next h => exact lookup_insertByKey_ne h

/-- Of several mappings for one name the last one stays, and what was stored before stays under the
other names. -/
theorem get?_insertAll : (s.insertAll es).get? n = (es.reverse.lookup n).or (s.get? n) := by
  -- the mapping that is stored last decides, so the induction takes it off first
  induction es using List.reverseRecOn with
  | nil => rfl
  | append_singleton es e ih =>
    obtain ⟨k, l⟩ := e
    have hlast : s.insertAll (es ++ [(k, l)]) = (s.insertAll es).insert k l := by
      rw [insertAll, List.foldl_append]
      rfl
    rw [hlast, get?_insert, ih, List.reverse_append, List.reverse_singleton, List.singleton_append,
      List.lookup_cons]
    -- the last mapping is found under its own name, and hides nothing under another
    by_cases hk : n = k
    · subst hk
      rw [if_pos rfl, beq_self_eq_true]
      rfl
    · rw [if_neg hk, beq_eq_false_iff_ne.2 hk]

/-- A mapping is given out where one is stored. -/
theorem get_eq_ok_iff : s.get name = .ok m ↔ s.get? name = some m := by
  rw [get]
  cases s.get? name with
  | none => simp
  | some l => simp

/-- The names are those under which a mapping is found. -/
theorem mem_names_iff : n ∈ s.names ↔ s.contains n = true := by
  rw [contains, get?, List.lookup_isSome_iff, names, List.mem_map]
  refine ⟨?_, ?_⟩
  · rintro ⟨e, he, rfl⟩
    exact ⟨e, he, beq_self_eq_true _⟩
  · rintro ⟨e, he, hn⟩
    exact ⟨e, he, (eq_of_beq hn).symm⟩

theorem contains_eq_true_iff : s.contains n = true ↔ ∃ m, s.get? n = some m := by
  rw [contains, Option.isSome_iff_exists]

/-- A store is not empty exactly if something is found in it. -/
theorem isEmpty_eq_false_iff : s.isEmpty = false ↔ ∃ n, s.contains n = true := by
  simp only [← mem_names_iff, names, isEmpty]
  cases s.entries with
  | nil => simp
  | cons e rest => exact ⟨fun _ => ⟨e.1, List.mem_cons_self⟩, fun _ => rfl⟩

/-! ### The order of names -/

/-- The names ascend strictly. -/
def Ordered (s : MappingStore) : Prop := s.names.Pairwise fun a b => compare a b = .lt

theorem ordered_empty : empty.Ordered := List.Pairwise.nil

/-- A mapping is stored at the place of its name. -/
theorem Ordered.insert (h : s.Ordered) : (s.insert name m).Ordered :=
  List.pairwise_map.2 (pairwise_insertByKey (List.pairwise_map.1 h))

/-- No name is stored twice, so every entry is found under its name. -/
theorem Ordered.get?_eq_some_iff (h : s.Ordered) : s.get? name = some m ↔ (name, m) ∈ s.entries :=
  lookup_eq_some_iff_mem <| h.imp fun hlt => by
    rintro rfl
    rw [Std.ReflOrd.compare_self] at hlt
    cases hlt

/-- The names stay in order whatever is put in. -/
theorem Ordered.insertAll (h : s.Ordered) : (s.insertAll es).Ordered := by
  induction es generalizing s with
  | nil => exact h
  | cons e es ih => exact ih h.insert

end MappingStore

end Tabula
