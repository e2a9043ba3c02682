import Mathlib.Data.List.Forall2

/-!
# Steps that may fail

When a chain of steps in `Except` ends well: every step did. When it fails, it stopped at the first
step that did not. Readers and compilers are such chains.
-/

namespace PeerAccess

section
variable {ε ε' α β : Type}

@[simp] theorem bind_eq_ok_iff {x : Except ε α} {f : α → Except ε β} {b : β} :
    x >>= f = .ok b ↔ ∃ a, x = .ok a ∧ f a = .ok b := by
  cases x <;> simp [bind, Except.bind]

@[simp] theorem pure_eq_ok_iff {a b : α} : (pure a : Except ε α) = .ok b ↔ a = b := by
  simp [pure, Except.pure]

@[simp] theorem map_eq_ok_iff {x : Except ε α} {f : α → β} {b : β} :
    x.map f = .ok b ↔ ∃ a, x = .ok a ∧ f a = b := by
  cases x <;> simp [Except.map]

@[simp] theorem mapError_eq_ok_iff {x : Except ε α} {f : ε → ε'} {a : α} :
    x.mapError f = .ok a ↔ x = .ok a := by
  cases x <;> simp [Except.mapError]

theorem bind_eq_error_iff {x : Except ε α} {f : α → Except ε β} {e : ε} :
    x >>= f = .error e ↔ x = .error e ∨ ∃ a, x = .ok a ∧ f a = .error e := by
  cases x <;> simp [bind, Except.bind]

theorem map_eq_error_iff {x : Except ε α} {f : α → β} {e : ε} :
    x.map f = .error e ↔ x = .error e := by
  cases x <;> simp [Except.map]

theorem mapError_eq_error_iff {x : Except ε α} {f : ε → ε'} {e : ε'} :
    x.mapError f = .error e ↔ ∃ d, x = .error d ∧ f d = e := by
  cases x <;> simp [Except.mapError]

theorem test_eq_error_iff {p : Prop} [Decidable p] {a : α} {e e' : ε} :
    (if p then .ok a else .error e : Except ε α) = .error e' ↔ ¬ p ∧ e = e' := by
  by_cases hp : p <;> simp [hp]

theorem mapM_eq_ok_iff {f : α → Except ε β} {xs : List α} {ys : List β} :
    xs.mapM f = .ok ys ↔ List.Forall₂ (fun x y => f x = .ok y) xs ys := by
  induction xs generalizing ys with
  | nil =>
    rw [List.mapM_nil, pure_eq_ok_iff, List.forall₂_nil_left_iff]
    exact eq_comm
  | cons x xs ih =>
    rw [List.mapM_cons, List.forall₂_cons_left_iff]
    simp only [bind_eq_ok_iff, pure_eq_ok_iff, ih]
    constructor
    · rintro ⟨y, hy, zs, hzs, rfl⟩
      exact ⟨y, zs, hy, hzs, rfl⟩
    · rintro ⟨y, zs, hy, hzs, rfl⟩
      exact ⟨y, hy, zs, hzs, rfl⟩

theorem exists_mapM_eq_ok_iff {f : α → Except ε β} {xs : List α} :
    (∃ ys, xs.mapM f = .ok ys) ↔ ∀ x ∈ xs, ∃ y, f x = .ok y := by
  simp only [mapM_eq_ok_iff]
  induction xs with
  | nil => simp
  | cons x xs ih =>
    rw [List.forall_mem_cons, ← ih]
    constructor
    · rintro ⟨_, hall⟩
      obtain ⟨y, ys, hy, hys, _⟩ := List.forall₂_cons_left_iff.mp hall
      exact ⟨⟨y, hy⟩, ys, hys⟩
    · rintro ⟨⟨y, hy⟩, ys, hys⟩
      exact ⟨y :: ys, .cons hy hys⟩

/-- What is wrong with the first item that anything is wrong with. -/
def FirstBad (Bad : α → ε → Prop) (xs : List α) (e : ε) : Prop :=
  ∃ before x after, xs = before ++ x :: after ∧ (∀ b ∈ before, ∀ e', ¬ Bad b e') ∧ Bad x e

theorem firstBad_cons_iff {Bad : α → ε → Prop} {x : α} {xs : List α} {e : ε} :
    FirstBad Bad (x :: xs) e ↔ Bad x e ∨ (∀ e', ¬ Bad x e') ∧ FirstBad Bad xs e := by
  constructor
  · rintro ⟨before, y, after, hxs, hbefore, hy⟩
    cases before with
    | nil =>
      obtain ⟨rfl, rfl⟩ := List.cons.inj hxs
      exact .inl hy
    | cons b before =>
      obtain ⟨rfl, rfl⟩ := List.cons.inj hxs
      rw [List.forall_mem_cons] at hbefore
      exact .inr ⟨hbefore.1, before, y, after, rfl, hbefore.2, hy⟩
  · rintro (hx | ⟨hx, before, y, after, rfl, hbefore, hy⟩)
    · exact ⟨[], x, xs, rfl, by simp, hx⟩
    · exact ⟨x :: before, y, after, rfl, List.forall_mem_cons.mpr ⟨hx, hbefore⟩, hy⟩

theorem firstBad_image_iff {Bad : α → ε → Prop} {words : ε → ε'} {xs : List α} {e' : ε'} :
    FirstBad (fun x e' => ∃ e, Bad x e ∧ words e = e') xs e' ↔
      ∃ e, FirstBad Bad xs e ∧ words e = e' := by
  constructor
  · rintro ⟨before, x, after, hxs, hbefore, e, hbad, he⟩
    exact ⟨e, ⟨before, x, after, hxs, fun b hb d hd => hbefore b hb _ ⟨d, hd, rfl⟩, hbad⟩, he⟩
  · rintro ⟨e, ⟨before, x, after, hxs, hbefore, hbad⟩, he⟩
    exact ⟨before, x, after, hxs, fun b hb _ ⟨d, hd, _⟩ => hbefore b hb d hd, e, hbad, he⟩

/-- A list fails with its first bad item. -/
theorem mapM_eq_error_iff {f : α → Except ε β} {Bad : α → ε → Prop} {xs : List α} {e : ε}
    (h : ∀ x ∈ xs, ∀ e, f x = .error e ↔ Bad x e) :
    xs.mapM f = .error e ↔ FirstBad Bad xs e := by
  induction xs with
  | nil => simp [FirstBad, pure, Except.pure]
  | cons x xs ih =>
    rw [List.forall_mem_cons] at h
    rw [List.mapM_cons, bind_eq_error_iff, firstBad_cons_iff, ← ih h.2, ← h.1]
    simp only [← h.1, bind_eq_error_iff, pure, Except.pure, reduceCtorEq, and_false, exists_false,
      or_false]
    cases f x <;> simp

theorem mapM_eq_some_iff {f : α → Option β} {xs : List α} {ys : List β} :
    xs.mapM f = some ys ↔ List.Forall₂ (fun x y => f x = some y) xs ys := by
  induction xs generalizing ys with
  | nil =>
    rw [List.mapM_nil, List.forall₂_nil_left_iff]
    simp [eq_comm]
  | cons x xs ih =>
    rw [List.mapM_cons, List.forall₂_cons_left_iff]
    simp only [Option.bind_eq_bind, Option.pure_def, Option.bind_eq_some_iff, ih, Option.some.injEq]
    constructor
    · rintro ⟨y, hy, zs, hzs, rfl⟩
      exact ⟨y, zs, hy, hzs, rfl⟩
    · rintro ⟨y, zs, hy, hzs, rfl⟩
      exact ⟨y, hy, zs, hzs, rfl⟩

theorem exists_partner {R : α → β → Prop} {xs : List α} {ys : List β}
    (h : List.Forall₂ R xs ys) {x : α} (hx : x ∈ xs) : ∃ y ∈ ys, R x y := by
  obtain ⟨i, hi, rfl⟩ := List.getElem_of_mem hx
  have hi' : i < ys.length := h.length_eq ▸ hi
  exact ⟨ys[i], List.getElem_mem hi', h.get hi hi'⟩

theorem mapM_eq_some_map {f : α → β} {g : α → Option β} (h : ∀ a, g a = some (f a))
    (as : List α) : as.mapM g = some (as.map f) := by
  induction as with
  | nil => rfl
  | cons a as ih => simp [h, ih]

theorem mapM_map_eq_some {f : α → β} {g : β → Option α} (h : ∀ a, g (f a) = some a)
    (as : List α) : (as.map f).mapM g = some as := by
  have hcomp : ∀ a, (g ∘ f) a = some (id a) := h
  rw [List.mapM_map, mapM_eq_some_map hcomp, List.map_id]

end

end PeerAccess
