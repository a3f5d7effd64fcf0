import Mathlib.Order.Interval.Finset.Nat

/-! Following links: a step that leads to one place at most, whether it comes to an end, and circles. -/

namespace Novino.Orbit

open Relation

variable {α : Type*} {step : α → Option α} {a b : α}

def Leads (step : α → Option α) (a b : α) : Prop := step a = some b

inductive Ends (step : α → Option α) : α → Prop where
  | stop {a : α} (h : step a = none) : Ends step a
  | next {a b : α} (h : step a = some b) (rest : Ends step b) : Ends step a

def Circular (step : α → Option α) (a : α) : Prop :=
  ∃ t, ReflTransGen (Leads step) a t ∧ TransGen (Leads step) t t

theorem Circular.next (h : Circular step a) : ∃ b, step a = some b ∧ Circular step b := by
  obtain ⟨t, hreach, hcircle⟩ := h
  rcases hreach.cases_head with rfl | ⟨b, hb, hrest⟩
  · obtain ⟨b, hb, hrest⟩ := TransGen.head'_iff.mp hcircle
    exact ⟨b, hb, b, ReflTransGen.refl, TransGen.tail' hrest hb⟩
  · exact ⟨b, hb, t, hrest, hcircle⟩

theorem Ends.not_circular (h : Ends step a) : ¬Circular step a := by
  induction h with
  | stop h =>
    intro hc
    obtain ⟨b, hb, -⟩ := hc.next
    rw [h] at hb
    cases hb
  | next h _ ih =>
    intro hc
    obtain ⟨b, hb, hrest⟩ := hc.next
    rw [h] at hb
    cases hb
    exact ih hrest

theorem exists_next_of_not_ends (h : ¬Ends step a) : ∃ b, step a = some b ∧ ¬Ends step b := by
  cases hs : step a with
  | none => exact absurd (Ends.stop hs) h
  | some b => exact ⟨b, rfl, fun hb => h (Ends.next hs hb)⟩

theorem ends_iff {S : Set α} (hfin : S.Finite) (hS : ∀ a b, step a = some b → b ∈ S) :
    Ends step a ↔ ¬Circular step a := by
  refine ⟨Ends.not_circular, fun hc => ?_⟩
  by_contra hends
  choose f hf using fun x : { x // ¬Ends step x } => exists_next_of_not_ends x.2
  let g : { x // ¬Ends step x } → { x // ¬Ends step x } := fun x => ⟨f x, (hf x).2⟩
  have hlead : ∀ n x, Leads step (g^[n] x).1 (g^[n + 1] x).1 := by
    intro n x
    rw [Function.iterate_succ_apply']
    exact (hf _).1
  have hreach : ∀ n m x, ReflTransGen (Leads step) (g^[n] x).1 (g^[n + m] x).1 := by
    intro n m x
    induction m with
    | zero => exact ReflTransGen.refl
    | succ m ih => exact ih.tail (hlead (n + m) x)
  -- an endless walk comes back to a place where it has been
  let x₀ : { x // ¬Ends step x } := ⟨a, hends⟩
  obtain ⟨m, n, hlt, heq⟩ := hfin.exists_lt_map_eq_of_forall_mem (f := fun n : ℕ => (g^[n + 1] x₀).1)
    fun n => hS _ _ (hlead n x₀)
  refine hc ⟨(g^[m + 1] x₀).1, ?_, ?_⟩
  · have := hreach 0 (m + 1) x₀
    rwa [Nat.zero_add] at this
  · have hback := hreach (m + 1 + 1) (n - (m + 1)) x₀
    rw [show m + 1 + 1 + (n - (m + 1)) = n + 1 by omega, ← heq] at hback
    exact TransGen.head' (hlead (m + 1) x₀) hback

end Novino.Orbit
