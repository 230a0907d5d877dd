import Mathlib.Tactic.Choose

/-!
# What computations return

The actions of a machine run in any monad, which need not have a run to look at.  What is returned
can still be spoken of: a computation always returns a value with a property if it comes from one
that returns such values by their type, and two computations return related values if both come
from one that returns related pairs.
-/

namespace RegexScan

variable {m : Type → Type} [Monad m] {α β γ δ : Type}

/-! ## A property of what is returned -/

/-- Whatever else a computation does, what it returns has a property. -/
def Always (p : α → Prop) (x : m α) : Prop := ∃ y : m (Subtype p), Subtype.val <$> y = x

variable [LawfulMonad m] {p : α → Prop} {q : β → Prop}

theorem always_pure {a : α} (h : p a) : Always p (pure a : m α) := by
  refine ⟨pure ⟨a, h⟩, ?_⟩
  rw [map_pure]

theorem always_true (x : m α) : Always (fun _ ↦ True) x := by
  refine ⟨(fun a ↦ ⟨a, trivial⟩) <$> x, ?_⟩
  rw [← comp_map]
  exact id_map x

/-- Properties are handed on along a bind. -/
theorem Always.bind {x : m α} {f : α → m β} (hx : Always p x) (h : ∀ a, p a → Always q (f a)) :
    Always q (x >>= f) := by
  obtain ⟨y, rfl⟩ := hx
  choose g hg using fun a : Subtype p ↦ h a.1 a.2
  refine ⟨y >>= g, ?_⟩
  rw [map_bind, bind_map_left]
  exact bind_congr hg

/-- A property of the results is mapped with them. -/
theorem Always.map {x : m α} {f : α → β} (h : Always p x) (hf : ∀ a, p a → q (f a)) :
    Always q (f <$> x) := by
  rw [map_eq_pure_bind]
  exact h.bind fun a ha ↦ always_pure (hf a ha)

/-- Only the values that can be returned matter to a map. -/
theorem Always.map_congr {x : m α} {f g : α → β} (h : Always p x) (hfg : ∀ a, p a → f a = g a) :
    f <$> x = g <$> x := by
  obtain ⟨y, rfl⟩ := h
  rw [← comp_map, ← comp_map]
  congr 1
  funext a
  exact hfg a.1 a.2

/-! ## A relation between what is returned -/

/-- Two computations do the same, and what they return is related. -/
def Coupled (r : α → β → Prop) (x : m α) (y : m β) : Prop :=
  ∃ z : m {p : α × β // r p.1 p.2}, (·.1.1) <$> z = x ∧ (·.1.2) <$> z = y

variable {r : α → β → Prop} {s : γ → δ → Prop}

theorem coupled_pure {a : α} {b : β} (h : r a b) : Coupled r (pure a : m α) (pure b) :=
  ⟨pure ⟨(a, b), h⟩, map_pure .., map_pure ..⟩

theorem Coupled.mono {r' : α → β → Prop} {x : m α} {y : m β} (h : Coupled r x y)
    (hr : ∀ a b, r a b → r' a b) : Coupled r' x y := by
  obtain ⟨z, rfl, rfl⟩ := h
  refine ⟨(fun p ↦ ⟨p.1, hr p.1.1 p.1.2 p.2⟩) <$> z, ?_, ?_⟩
  · rw [← comp_map]
    rfl
  · rw [← comp_map]
    rfl

/-- Coupled computations with coupled continuations are coupled. -/
theorem Coupled.bind {x : m α} {y : m β} {f : α → m γ} {g : β → m δ} (h : Coupled r x y)
    (hfg : ∀ a b, r a b → Coupled s (f a) (g b)) : Coupled s (x >>= f) (y >>= g) := by
  obtain ⟨z, rfl, rfl⟩ := h
  choose k hf hg using fun p : {p : α × β // r p.1 p.2} ↦ hfg p.1.1 p.1.2 p.2
  refine ⟨z >>= k, ?_, ?_⟩
  · rw [map_bind, bind_map_left]
    exact bind_congr hf
  · rw [map_bind, bind_map_left]
    exact bind_congr hg

theorem Coupled.map {x : m α} {y : m β} {f : α → γ} {g : β → δ} (h : Coupled r x y)
    (hfg : ∀ a b, r a b → s (f a) (g b)) : Coupled s (f <$> x) (g <$> y) := by
  rw [map_eq_pure_bind, map_eq_pure_bind]
  exact h.bind fun a b hab ↦ coupled_pure (hfg a b hab)

/-- A computation that comes first in both does the same in both. -/
theorem coupled_bind_left (x : m α) {f : α → m γ} {g : α → m δ}
    (hfg : ∀ a, Coupled s (f a) (g a)) : Coupled s (x >>= f) (x >>= g) := by
  choose k hf hg using hfg
  refine ⟨x >>= k, ?_, ?_⟩
  · rw [map_bind]
    exact bind_congr hf
  · rw [map_bind]
    exact bind_congr hg

/-- What one of the computations returns has the properties that follow from the relation. -/
theorem Coupled.always {x : m α} {y : m β} (h : Coupled r x y) (hp : ∀ a b, r a b → p a) :
    Always p x := by
  obtain ⟨z, rfl, -⟩ := h
  exact (always_true z).map fun q _ ↦ hp q.1.1 q.1.2 q.2

/-- If related values are mapped to the same, then the computations are. -/
theorem Coupled.map_eq_map {x : m α} {y : m β} {f : α → γ} {g : β → γ} (h : Coupled r x y)
    (hfg : ∀ a b, r a b → f a = g b) : f <$> x = g <$> y := by
  obtain ⟨z, rfl, rfl⟩ := h
  rw [← comp_map, ← comp_map]
  congr 1
  funext q
  exact hfg q.1.1 q.1.2 q.2

end RegexScan
