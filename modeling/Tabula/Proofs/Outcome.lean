import Mathlib
import Tabula.Error

/-!
# Outcomes of composed operations

Operations are composed by `bind` and mapped over lists by `List.mapM`. An outcome of the whole is
read off the outcomes of its parts here, once, so that no later proof opens either of them.

* `bind_eq_ok_iff`, `bind_eq_error_iff` — a composition succeeds with its parts, and fails with the
  first part that does.
* `mapM_eq_ok_iff` — a mapped operation succeeds element by element.
* `exists_mapM_eq_ok` — it succeeds if it does on every element.
* `mapM_eq_some_iff`, `mapM_map_eq_some` — the same for operations that may have no result.
* `run_bind`, `run_map` — where a composed operation with a state goes on, and `run_run_bind` with
  two states.
-/

namespace Tabula

variable {α β γ ε ε' : Type}

@[simp] theorem pure_eq_ok (a : α) : (pure a : Except Error α) = .ok a := rfl

@[simp] theorem throw_eq_error (e : Error) : (throw e : Except Error α) = .error e := rfl

@[simp] theorem ok_bind (a : α) (f : α → Except Error β) : (Except.ok a >>= f) = f a := rfl

@[simp] theorem error_bind (e : Error) (f : α → Except Error β) :
    (Except.error e >>= f) = .error e := rfl

/-- A composition succeeds exactly if both of its parts do. -/
theorem bind_eq_ok_iff {x : Except Error α} {f : α → Except Error β} {b : β} :
    x >>= f = .ok b ↔ ∃ a, x = .ok a ∧ f a = .ok b := by
  cases x with
  | error e => simp
  | ok a => simp

/-- A composition fails with its first part, or with its second part after the first. -/
theorem bind_eq_error_iff {x : Except Error α} {f : α → Except Error β} {e : Error} :
    x >>= f = .error e ↔ x = .error e ∨ ∃ a, x = .ok a ∧ f a = .error e := by
  cases x with
  | error e => simp
  | ok a => simp

/-- A mapped operation succeeds where the operation does. -/
theorem map_eq_ok_iff {x : Except ε α} {f : α → β} {b : β} :
    x.map f = .ok b ↔ ∃ a, x = .ok a ∧ f a = b := by
  cases x with
  | error e => simp [Except.map]
  | ok a => simp [Except.map]

/-- Changing the errors changes no success. -/
theorem mapError_eq_ok_iff {x : Except ε α} {f : ε → ε'} {a : α} :
    x.mapError f = .ok a ↔ x = .ok a := by
  cases x with
  | error e => simp [Except.mapError]
  | ok a => simp [Except.mapError]

/-- A mapped operation succeeds exactly if it does on every element, with the results in order. -/
theorem mapM_eq_ok_iff {f : α → Except Error β} {xs : List α} {ys : List β} :
    xs.mapM f = .ok ys ↔ List.Forall₂ (fun x y => f x = .ok y) xs ys := by
  induction xs generalizing ys with
  | nil => simp [eq_comm]
  | cons x xs ih =>
    rw [List.mapM_cons, bind_eq_ok_iff]
    -- the first element succeeds and then the others, in one direction as in the other
    refine ⟨?_, ?_⟩
    · rintro ⟨y, hy, h⟩
      obtain ⟨zs, hzs, h⟩ := bind_eq_ok_iff.1 h
      rw [pure_eq_ok, Except.ok.injEq] at h
      exact h ▸ .cons hy (ih.1 hzs)
    · rintro (_ | ⟨hy, hys⟩)
      exact ⟨_, hy, bind_eq_ok_iff.2 ⟨_, ih.2 hys, rfl⟩⟩

/-- A mapped operation succeeds if it does on every element. -/
theorem exists_mapM_eq_ok {f : α → Except Error β} {xs : List α}
    (h : ∀ x ∈ xs, ∃ y, f x = .ok y) : ∃ ys, xs.mapM f = .ok ys := by
  induction xs with
  | nil => exact ⟨[], rfl⟩
  | cons x xs ih =>
    obtain ⟨y, hy⟩ := h x List.mem_cons_self
    obtain ⟨ys, hys⟩ := ih fun z hz => h z (List.mem_cons_of_mem _ hz)
    exact ⟨y :: ys, mapM_eq_ok_iff.2 (.cons hy (mapM_eq_ok_iff.1 hys))⟩

/-- Operations that agree on the elements of a list come to the same when mapped over it. -/
theorem mapM_congr {f g : α → Except Error β} {xs : List α} (h : ∀ x ∈ xs, f x = g x) :
    xs.mapM f = xs.mapM g := by
  induction xs with
  | nil => rfl
  | cons x xs ih =>
    rw [List.mapM_cons, List.mapM_cons, h x List.mem_cons_self,
      ih fun z hz => h z (List.mem_cons_of_mem _ hz)]

/-- Two lists that are related to a third one, element by element, are related to each other. -/
theorem forall₂_of_common {R : α → β → Prop} {S : α → γ → Prop} {T : β → γ → Prop} {xs : List α}
    {ys : List β} {zs : List γ} (hR : List.Forall₂ R xs ys) (hS : List.Forall₂ S xs zs)
    (h : ∀ x ∈ xs, ∀ y z, R x y → S x z → T y z) : List.Forall₂ T ys zs := by
  -- the relations share their first list, so taking one apart takes the other apart as well
  induction hR generalizing zs with
  | nil =>
    cases hS
    exact .nil
  | cons hxy _ ih =>
    cases hS with
    | cons hxz hS =>
      exact .cons (h _ List.mem_cons_self _ _ hxy hxz)
        (ih hS fun x hx => h x (List.mem_cons_of_mem _ hx))

/-- A relation between lists may use that the elements of the first are in it. -/
theorem forall₂_imp_of_mem {R S : α → β → Prop} {xs : List α} {ys : List β}
    (h : List.Forall₂ R xs ys) (hRS : ∀ x ∈ xs, ∀ y, R x y → S x y) : List.Forall₂ S xs ys := by
  have hmem : List.Forall₂ (fun x y => x ∈ xs ∧ R x y) xs ys :=
    (List.forall₂_and_left xs ys).2 ⟨fun x hx => hx, h⟩
  exact hmem.imp fun x y hxy => hRS x hxy.1 y hxy.2

/-- An element of the second of two related lists is related to one of the first. -/
theorem forall₂_exists_left {R : α → β → Prop} {xs : List α} {ys : List β}
    (h : List.Forall₂ R xs ys) {y : β} (hy : y ∈ ys) : ∃ x ∈ xs, R x y := by
  induction h with
  | nil => cases hy
  | cons hxy _ ih =>
    obtain rfl | hy := List.mem_cons.1 hy
    · exact ⟨_, List.mem_cons_self, hxy⟩
    · obtain ⟨x, hx, hR⟩ := ih hy
      exact ⟨x, List.mem_cons_of_mem _ hx, hR⟩

/-- An element of the first of two related lists is related to one of the second. -/
theorem forall₂_exists_right {R : α → β → Prop} {xs : List α} {ys : List β}
    (h : List.Forall₂ R xs ys) {x : α} (hx : x ∈ xs) : ∃ y ∈ ys, R x y :=
  forall₂_exists_left h.flip hx

/-- If each element is related to something, the list is related to a list. -/
theorem exists_forall₂ {R : α → β → Prop} {xs : List α} (h : ∀ x ∈ xs, ∃ y, R x y) :
    ∃ ys, List.Forall₂ R xs ys := by
  induction xs with
  | nil => exact ⟨[], .nil⟩
  | cons x xs ih =>
    obtain ⟨⟨y, hy⟩, hxs⟩ := List.forall_mem_cons.1 h
    obtain ⟨ys, hys⟩ := ih hxs
    exact ⟨y :: ys, .cons hy hys⟩

/-- Related lists are related place by place. -/
theorem exists_getElem?_of_forall₂ {R : α → β → Prop} {xs : List α} {ys : List β}
    (h : List.Forall₂ R xs ys) {j : Nat} {y : β} (hy : ys[j]? = some y) :
    ∃ x, xs[j]? = some x ∧ R x y := by
  obtain ⟨hj, rfl⟩ := List.getElem?_eq_some_iff.1 hy
  have hj' : j < xs.length := h.length_eq ▸ hj
  exact ⟨xs[j], List.getElem?_eq_getElem hj', h.get hj' hj⟩

/-- A mapped partial operation has a result exactly if it has one on every element. -/
theorem mapM_eq_some_iff {f : α → Option β} {xs : List α} {ys : List β} :
    xs.mapM f = some ys ↔ List.Forall₂ (fun x y => f x = some y) xs ys := by
  induction xs generalizing ys with
  | nil => simp [eq_comm]
  | cons x xs ih =>
    rw [List.mapM_cons, Option.bind_eq_bind, Option.bind_eq_some_iff]
    refine ⟨?_, ?_⟩
    · rintro ⟨y, hy, h⟩
      obtain ⟨zs, hzs, h⟩ := Option.bind_eq_some_iff.1 h
      exact Option.some.inj h ▸ .cons hy (ih.1 hzs)
    · rintro (_ | ⟨hy, hys⟩)
      exact ⟨_, hy, Option.bind_eq_some_iff.2 ⟨_, ih.2 hys, rfl⟩⟩

/-- It has one on the images of elements if it has one on each of them. -/
theorem mapM_map_eq_some {f : β → Option γ} {g : α → β} {k : α → γ} {xs : List α}
    (h : ∀ x ∈ xs, f (g x) = some (k x)) : (xs.map g).mapM f = some (xs.map k) := by
  rw [mapM_eq_some_iff, List.forall₂_map_left_iff, List.forall₂_map_right_iff, List.forall₂_same]
  exact h

/-! ### Operations with a state -/

section

variable {σ : Type}

/-- A composed operation goes on from the state that its first part leaves, unless this part
fails. -/
theorem run_bind (x : ExceptT ε (StateM σ) α) (f : α → ExceptT ε (StateM σ) β) (s : σ) :
    (x >>= f).run.run s =
      match x.run.run s with
      | (.ok a, s') => (f a).run.run s'
      | (.error e, s') => (.error e, s') := by
  -- both monads are opened here and nowhere else; what is left is a case distinction
  show (match x.run.run s with | (a, s') => (ExceptT.bindCont f a).run s') = _
  generalize x.run.run s = y
  obtain ⟨a | a, s'⟩ := y
  · rfl
  · rfl

/-- Mapping over a composed operation leaves its state and its errors alone. -/
theorem run_map (f : α → β) (x : ExceptT ε (StateM σ) α) (s : σ) :
    (f <$> x).run.run s =
      match x.run.run s with
      | (.ok a, s') => (.ok (f a), s')
      | (.error e, s') => (.error e, s') := by
  rw [← bind_pure_comp, run_bind]
  rfl

/-- With two states, a composed operation goes on from both of them. -/
theorem run_run_bind {τ : Type} (x : ExceptT Error (StateT τ (StateM σ)) α)
    (f : α → ExceptT Error (StateT τ (StateM σ)) β) (e : τ) (s : σ) :
    ((x >>= f).run.run e).run s =
      match (x.run.run e).run s with
      | ((.ok a, e'), s') => ((f a).run.run e').run s'
      | ((.error err, e'), s') => ((.error err, e'), s') := by
  show (match (x.run.run e).run s with
    | ((a, e'), s') => ((ExceptT.bindCont f a).run e').run s') = _
  -- whatever the first operation has answered, both sides go on from there alike
  generalize (x.run.run e).run s = y
  obtain ⟨⟨a | a, e'⟩, s'⟩ := y
  · rfl
  · rfl

end

end Tabula
