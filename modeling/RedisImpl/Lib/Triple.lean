import RedisImpl.Lib.Heap

/-!
# Computations on a heap

`HeapM α β` is a computation on a heap of cells `α`, without a result where the program has
undefined behaviour. `Triple bs m Q`: from a heap with the blocks `bs`, `m` returns some `b` and
leaves some blocks `cs` with `Q b cs`; the blocks beside `bs` are left alone.

The rules `Triple.load`, `Triple.store`, `Triple.alloc` and `Triple.free` take one operation off a
computation. Blocks are taken in any order (`Triple.perm`).
-/

namespace RedisImpl

abbrev HeapM (α : Type) := StateT (Heap α) Option

open Heap

namespace HeapM

variable {α β : Type}

/-- What the block at `p` holds. -/
def load (p : Ptr) : HeapM α α := fun h => (p.bind h.load).map fun c => (c, h)

def alloc (c : α) : HeapM α Ptr := fun h => some (some h.size, h.alloc c)

def store (p : Ptr) (c : α) : HeapM α Unit := fun h => do
  let a ← p
  let _ ← h.load a
  return ((), h.store a c)

/-- `free`, which does nothing for NULL. -/
def free (p : Ptr) : HeapM α Unit := fun h =>
  match p with
  | none => some ((), h)
  | some a => (h.load a).map fun _ => ((), h.free a)

end HeapM

def Triple {α β : Type} (bs : List (Nat × α)) (m : HeapM α β) (Q : β → List (Nat × α) → Prop) :
    Prop :=
  ∀ h F, Owns h (bs ++ F) → ∃ b h' cs, m h = some (b, h') ∧ Q b cs ∧ Owns h' (cs ++ F)

namespace Triple

variable {α β γ : Type} {bs cs : List (Nat × α)} {m : HeapM α β} {Q : β → List (Nat × α) → Prop}
  {R : γ → List (Nat × α) → Prop} {a : Nat} {c c' : α}

theorem ret {b : β} (hq : Q b bs) : Triple bs (pure b : HeapM α β) Q :=
  fun h _ ho => ⟨b, h, bs, rfl, hq, ho⟩

theorem bind {f : β → HeapM α γ} (hm : Triple bs m Q) (hf : ∀ b cs, Q b cs → Triple cs (f b) R) :
    Triple bs (m >>= f) R := by
  intro h F ho
  obtain ⟨b, h₁, cs, hr, hq, ho₁⟩ := hm h F ho
  obtain ⟨d, h₂, ds, hr₂, hq₂, ho₂⟩ := hf b cs hq h₁ F ho₁
  refine ⟨d, h₂, ds, ?_, hq₂, ho₂⟩
  show (m h).bind (fun p => f p.1 p.2) = _
  rw [hr]
  exact hr₂

/-- A computation as one with nothing behind it, for the rules below. -/
theorem of_bind_pure (hm : Triple bs (m >>= pure) Q) : Triple bs m Q := by
  rwa [bind_pure] at hm

theorem perm (hp : bs.Perm cs) (hm : Triple cs m Q) : Triple bs m Q :=
  fun h F ho => hm h F (ho.perm (hp.append_right F))

/-- Owned blocks are at different addresses. -/
theorem of_nodup (hm : (bs.map Prod.fst).Nodup → Triple bs m Q) : Triple bs m Q :=
  fun h F ho => hm ho.left.nodup h F ho

section Operations

variable {f : α → HeapM α γ} {k : Unit → HeapM α γ} {g : Ptr → HeapM α γ}

/-- Reading a block that is owned. -/
theorem load (hm : (a, c) ∈ bs) (hf : Triple bs (f c) R) :
    Triple bs (HeapM.load (some a) >>= f) R := by
  refine bind (Q := fun r cs => r = c ∧ cs = bs) ?_ ?_
  · intro h F ho
    have hl : h.load a = some c := ho.load_of_mem (List.mem_append_left F hm)
    exact ⟨c, h, bs, by simp [HeapM.load, hl], ⟨rfl, rfl⟩, ho⟩
  · rintro _ _ ⟨rfl, rfl⟩
    exact hf

theorem store (c' : α) (hp : bs.Perm ((a, c) :: cs)) (hk : Triple ((a, c') :: cs) (k ()) R) :
    Triple bs (HeapM.store (some a) c' >>= k) R := by
  refine perm hp (bind (Q := fun _ ds => ds = (a, c') :: cs) ?_ ?_)
  · intro h F ho
    have hl : h.load a = some c := ho.load_of_mem List.mem_cons_self
    exact ⟨(), h.store a c', _, by simp [HeapM.store, hl], rfl, Owns.store ho c'⟩
  · rintro _ _ rfl
    exact hk

theorem alloc (c : α) (hg : ∀ a, Triple ((a, c) :: bs) (g (some a)) R) :
    Triple bs (HeapM.alloc c >>= g) R := by
  refine bind (Q := fun p ds => ∃ a, p = some a ∧ ds = (a, c) :: bs) ?_ ?_
  · intro h F ho
    exact ⟨some h.size, h.alloc c, _, rfl, ⟨h.size, rfl, rfl⟩, Owns.alloc ho c⟩
  · rintro _ _ ⟨a, rfl, rfl⟩
    exact hg a

theorem free (hp : bs.Perm ((a, c) :: cs)) (hk : Triple cs (k ()) R) :
    Triple bs (HeapM.free (some a) >>= k) R := by
  refine perm hp (bind (Q := fun _ ds => ds = cs) ?_ ?_)
  · intro h F ho
    have hl : h.load a = some c := ho.load_of_mem List.mem_cons_self
    exact ⟨(), h.free a, _, by simp [HeapM.free, hl], rfl, Owns.free ho⟩
  · rintro _ _ rfl
    exact hk

end Operations
end Triple
end RedisImpl
