import Mathlib.Logic.Relation
import Mathlib.Logic.Function.Basic

/-! Namespaces: directories with named entries.

    A directory is the entry of one directory under one name, and a root is the entry of none. Objects that are not
    directories may have several names. -/

namespace Novino

/-- Directories with named entries, in which a directory has one place and a root has none. -/
@[ext]
structure Namespace (N A : Type) where
  isDir : N → Prop
  isRoot : N → Prop
  entry : N → A → Option N
  folder : ∀ {x n y}, entry x n = some y → isDir x
  single : ∀ {x x' n n' y}, isDir y → entry x n = some y → entry x' n' = some y → x = x' ∧ n = n'
  inner : ∀ {x n y}, entry x n = some y → ¬isRoot y

namespace Namespace
variable {N A : Type} (T : Namespace N A)

structure Fresh (T : Namespace N A) (y : N) : Prop where
  dir : ¬T.isDir y
  root : ¬T.isRoot y
  entry : ∀ x n, T.entry x n ≠ some y

def Empty (y : N) : Prop := ∀ n, T.entry y n = none

theorem empty_of_not_isDir {T : Namespace N A} {y : N} (h : ¬T.isDir y) : T.Empty y := fun n => by
  by_contra hn
  obtain ⟨w, hw⟩ := Option.ne_none_iff_exists'.mp hn
  exact h (T.folder hw)

def Known (y : N) : Prop := T.isDir y ∨ ∃ x n, T.entry x n = some y

def Reach : N → N → Prop := Relation.ReflTransGen fun a b => ∃ n, T.entry a n = some b

variable [DecidableEq N] [DecidableEq A]

def put {x : N} (n : A) {y : N} (dir : Bool) (hx : T.isDir x) (hy : T.Fresh y) : Namespace N A where
  isDir z := T.isDir z ∨ dir = true ∧ z = y
  isRoot := T.isRoot
  entry z m := if z = x ∧ m = n then some y else T.entry z m
  folder {z m w} h := by
    split at h
    · rename_i heq
      exact .inl (heq.1 ▸ hx)
    · exact .inl (T.folder h)
  single {z z' m m' w} hw h h' := by
    split at h <;> split at h'
    · rename_i h₁ h₂
      exact ⟨h₁.1.trans h₂.1.symm, h₁.2.trans h₂.2.symm⟩
    · cases h
      exact absurd h' (hy.entry z' m')
    · cases h'
      exact absurd h (hy.entry z m)
    · rcases hw with hw | ⟨-, rfl⟩
      · exact T.single hw h h'
      · exact absurd h (hy.entry z m)
  inner {z m w} h := by
    split at h
    · cases h
      exact hy.root
    · exact T.inner h

section Put
variable {T : Namespace N A} {x : N} (n : A) {y : N} (dir : Bool) (hx : T.isDir x) (hy : T.Fresh y) (z : N) (m : A)

theorem put_isDir : (T.put n dir hx hy).isDir z ↔ T.isDir z ∨ dir = true ∧ z = y := Iff.rfl

theorem put_entry : (T.put n dir hx hy).entry z m = if z = x ∧ m = n then some y else T.entry z m := rfl

end Put

def drop {x : N} {n : A} {y : N} (_ : T.entry x n = some y) (he : T.Empty y) : Namespace N A where
  isDir z := T.isDir z ∧ z ≠ y
  isRoot := T.isRoot
  entry z m := if z = x ∧ m = n then none else T.entry z m
  folder {z m w} h := by
    split at h
    · cases h
    · refine ⟨T.folder h, fun heq => ?_⟩
      rw [heq, he m] at h
      cases h
  single {z z' m m' w} hw h h' := by
    split at h
    · cases h
    split at h'
    · cases h'
    exact T.single hw.1 h h'
  inner {z m w} h := by
    split at h
    · cases h
    · exact T.inner h

section Drop
variable {T : Namespace N A} {x : N} {n : A} {y : N} (h : T.entry x n = some y) (he : T.Empty y) (z : N) (m : A)

theorem drop_isDir : (T.drop h he).isDir z ↔ T.isDir z ∧ z ≠ y := Iff.rfl

theorem drop_entry : (T.drop h he).entry z m = if z = x ∧ m = n then none else T.entry z m := rfl

end Drop

/-- An object that has an entry gets another one instead; the object that this one led to is replaced. -/
def move {x : N} {n : A} {y : N} {x' : N} {n' : A} (h : T.entry x n = some y)
    (hx' : T.isDir x') (ho : ∀ w, T.entry x' n' = some w → T.Empty w) : Namespace N A where
  isDir z := T.isDir z ∧ T.entry x' n' ≠ some z
  isRoot := T.isRoot
  entry z m := if z = x' ∧ m = n' then some y else if z = x ∧ m = n then none else T.entry z m
  folder {z m w} hw := by
    split at hw
    · rename_i heq
      refine ⟨heq.1 ▸ hx', fun hz => ?_⟩
      have hself := ho z hz n'
      rw [heq.1, hz] at hself
      cases hself
    split at hw
    · cases hw
    refine ⟨T.folder hw, fun hz => ?_⟩
    rw [ho z hz m] at hw
    cases hw
  single {z z' m m' w} hw h₁ h₂ := by
    -- an entry of the moved object that is neither the old nor the new one would be a second one
    have other : ∀ {z m}, T.isDir w → w = y → T.entry z m = some w → z = x ∧ m = n := fun hd heq hz =>
      T.single hd hz (heq ▸ h)
    split at h₁ <;> split at h₂
    · rename_i k₁ k₂
      exact ⟨k₁.1.trans k₂.1.symm, k₁.2.trans k₂.2.symm⟩
    · split at h₂
      · cases h₂
      · rename_i k
        exact absurd (other hw.1 (Option.some.inj h₁).symm h₂) k
    · split at h₁
      · cases h₁
      · rename_i k
        exact absurd (other hw.1 (Option.some.inj h₂).symm h₁) k
    · split at h₁
      · cases h₁
      split at h₂
      · cases h₂
      exact T.single hw.1 h₁ h₂
  inner {z m w} hw := by
    split at hw
    · cases hw
      exact T.inner h
    split at hw
    · cases hw
    exact T.inner hw

section Move
variable {T : Namespace N A} {x : N} {n : A} {y : N} {x' : N} {n' : A} (h : T.entry x n = some y)
  (hx' : T.isDir x') (ho : ∀ w, T.entry x' n' = some w → T.Empty w) (z : N) (m : A)

theorem move_isDir : (T.move h hx' ho).isDir z ↔ T.isDir z ∧ T.entry x' n' ≠ some z := Iff.rfl

theorem move_entry : (T.move h hx' ho).entry z m =
    if z = x' ∧ m = n' then some y else if z = x ∧ m = n then none else T.entry z m := rfl

end Move

end Namespace

end Novino
