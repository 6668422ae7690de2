import Mathlib.Tactic
import PascalJvm.Log

/-!
# Computations that succeed

How a successful outcome comes apart: a sequence succeeds when each of its parts does.
-/
namespace PascalJvm

variable {ε α β : Type}

@[simp] theorem bind_eq_ok {x : Except ε α} {f : α → Except ε β} {b : β} :
    (x >>= f) = .ok b ↔ ∃ a, x = .ok a ∧ f a = .ok b := by
  cases x with
  | error e =>
    show Except.error e = Except.ok b ↔ _
    simp
  | ok a =>
    show f a = .ok b ↔ _
    simp

@[simp] theorem pure_eq_ok {a b : α} : (pure a : Except ε α) = .ok b ↔ a = b := by
  show Except.ok a = Except.ok b ↔ _
  simp

@[simp] theorem throw_ne_ok {e : ε} {b : α} : (throw e : Except ε α) = .ok b ↔ False := by
  show Except.error e = Except.ok b ↔ _
  simp

@[simp] theorem map_eq_ok {x : Except ε α} {f : α → β} {b : β} :
    x.map f = .ok b ↔ ∃ a, x = .ok a ∧ f a = b := by
  cases x <;> simp [Except.map]

lemma toOption_eq_some {x : Except ε α} {a : α} : x.toOption = some a ↔ x = .ok a := by
  cases x <;> simp [Except.toOption]

@[simp] theorem mapError_eq_ok {ε' : Type} {x : Except ε α} {f : ε → ε'} {a : α} :
    x.mapError f = .ok a ↔ x = .ok a := by
  cases x <;> simp [Except.mapError]

/-- A computation that goes on only when nothing is thrown. -/
lemma ok_of_guard {c : Prop} [Decidable c] {e : ε} {f : β → Except ε α} {x : Except ε α} {a : α}
    (h : (if c then (throw e >>= f) else x) = .ok a) : ¬c ∧ x = .ok a := by
  split at h
  next => simp at h
  next hc => exact ⟨hc, h⟩

/-- What holds of every success of `f` holds of every element of a list that it succeeds on. -/
lemma forall_of_mapM_eq_ok {f : α → Except ε β} {P : β → Prop} (hf : ∀ a b, f a = .ok b → P b)
    {xs : List α} {ys : List β} (h : xs.mapM f = .ok ys) : ∀ y ∈ ys, P y := by
  induction xs generalizing ys with
  | nil =>
    simp only [List.mapM_nil, pure_eq_ok] at h
    simp [← h]
  | cons x xs ih =>
    simp only [List.mapM_cons, bind_eq_ok, pure_eq_ok] at h
    obtain ⟨y, hy, rest, hrest, rfl⟩ := h
    intro z hz
    rcases List.mem_cons.mp hz with rfl | hz
    · exact hf _ _ hy
    · exact ih hrest z hz

lemma forall₂_of_mapM_eq_ok {f : α → Except ε β} {xs : List α} {ys : List β}
    (h : xs.mapM f = .ok ys) : List.Forall₂ (fun x y => f x = .ok y) xs ys := by
  induction xs generalizing ys with
  | nil =>
    simp only [List.mapM_nil, pure_eq_ok] at h
    simp [← h]
  | cons x xs ih =>
    simp only [List.mapM_cons, bind_eq_ok, pure_eq_ok] at h
    obtain ⟨y, hy, rest, hrest, rfl⟩ := h
    exact .cons hy (ih hrest)

lemma length_of_mapM_eq_ok {f : α → Except ε β} {xs : List α} {ys : List β}
    (h : xs.mapM f = .ok ys) : ys.length = xs.length := by
  induction xs generalizing ys with
  | nil =>
    simp only [List.mapM_nil, pure_eq_ok] at h
    simp [← h]
  | cons x xs ih =>
    simp only [List.mapM_cons, bind_eq_ok, pure_eq_ok] at h
    obtain ⟨y, -, rest, hrest, rfl⟩ := h
    simp [ih hrest]

namespace Traced

instance : LawfulMonad (Traced ε) := by
  refine LawfulMonad.mk' _ ?_ ?_ ?_
  · rintro α ⟨events, outcome⟩
    cases outcome with
    | error e => rfl
    | ok a => exact congrArg (Traced.mk · (.ok a)) (List.append_nil events)
  · intro α β a f
    rfl
  · rintro α β γ ⟨events, outcome⟩ f g
    cases outcome with
    | error e => rfl
    | ok a =>
      show Traced.bind (Traced.bind _ f) g = Traced.bind _ fun x => Traced.bind (f x) g
      rcases h : f a with ⟨more, _ | b⟩ <;> simp [Traced.bind, h]

lemma bind_ok {x : Traced ε α} {f : α → Traced ε β} {b : β} :
    (x >>= f).outcome = .ok b ↔ ∃ a, x.outcome = .ok a ∧ (f a).outcome = .ok b := by
  rw [outcome_bind, bind_eq_ok]

lemma outcome_report_bind (event : Event) (x : Traced ε α) :
    (do report event; x : Traced ε α).outcome = x.outcome := by
  rw [outcome_bind, outcome_report]
  rfl

/-- What is reported after a result does not change it. -/
lemma outcome_reported (x : Traced ε α) (event : α → Event) :
    (do let a ← x; report (event a); return a : Traced ε α).outcome = x.outcome := by
  rw [outcome_bind]
  cases x.outcome <;> rfl

@[simp] theorem outcome_mapM {f : α → Traced ε β} {xs : List α} :
    (xs.mapM f).outcome = xs.mapM fun x => (f x).outcome := by
  induction xs with
  | nil => rfl
  | cons x xs ih =>
    rw [List.mapM_cons, List.mapM_cons, outcome_bind]
    congr 1
    funext y
    rw [outcome_bind, ih]
    rfl

end Traced
end PascalJvm
