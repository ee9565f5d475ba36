import Mathlib.Algebra.Order.Group.Multiset
import Mathlib.Data.Multiset.MapFold
import Mathlib.Data.Multiset.UnionInter
import Mathlib.Tactic.Abel
import RedisImpl.Lib.Triple

/-!
# Computations that account for every block

`Heap.blocks` is the multiset of all blocks of a heap. `Linear B m Q`: from a heap whose blocks are
`B` and a frame, `m` returns some `b`, and then the blocks are some `C` with `Q b C` and the frame.
Unlike in `Triple`, no block is forgotten: what `m` allocates and does not free is in `C`, so a
postcondition also says what is leaked.

`Reads B m b`: `m` returns `b` and changes nothing, wherever the blocks `B` are.

`Fills h bs` is the same for a list: the heap has the blocks `bs` and no others. Owning them is
enough, if there are no more (`Fills.of_owns`).

The rules take one operation off a computation, as those of `Triple` do. `+` is the separating
conjunction, up to `abel`.
-/

namespace RedisImpl
namespace Heap

variable {α : Type} {h : Heap α} {a : Nat} {c : α} {B : Multiset (Nat × α)}

/-- The block at `a`, which holds `c`. -/
def pt (a : Nat) (c : α) : Multiset (Nat × α) := {(a, c)}

@[simp] theorem mem_pt {x : Nat × α} : x ∈ pt a c ↔ x = (a, c) := Multiset.mem_singleton

@[simp] theorem card_pt (a : Nat) (c : α) : Multiset.card (pt a c) = 1 := Multiset.card_singleton _

/-- All blocks. -/
def blocks (h : Heap α) : Multiset (Nat × α) :=
  ((List.range h.size).filterMap fun a => (h.load a).map fun c => (a, c) : List (Nat × α))

theorem mem_blocks {x : Nat × α} : x ∈ h.blocks ↔ h.load x.1 = some x.2 := by
  rw [blocks, Multiset.mem_coe, List.mem_filterMap]
  constructor
  · rintro ⟨a, -, hx⟩
    obtain ⟨c, hc, rfl⟩ := Option.map_eq_some_iff.mp hx
    exact hc
  · intro hx
    exact ⟨x.1, List.mem_range.mpr (lt_size_of_load hx), by rw [hx]; rfl⟩

/-- A block is there once. -/
theorem nodup_blocks (h : Heap α) : h.blocks.Nodup := by
  rw [blocks, Multiset.coe_nodup]
  apply List.nodup_range.filterMap
  intro a a' x hx hx'
  obtain ⟨c, -, rfl⟩ := Option.map_eq_some_iff.mp hx
  obtain ⟨c', -, heq⟩ := Option.map_eq_some_iff.mp hx'
  exact (congrArg Prod.fst heq).symm

theorem blocks_eq_iff (hB : B.Nodup) :
    h.blocks = B ↔ ∀ a c, h.load a = some c ↔ (a, c) ∈ B := by
  rw [(nodup_blocks h).ext hB]
  exact ⟨fun hx a c => mem_blocks.symm.trans (hx (a, c)), fun hx x => mem_blocks.trans (hx x.1 x.2)⟩

@[simp] theorem blocks_empty : (empty : Heap α).blocks = 0 := rfl

theorem load_of_blocks (hb : h.blocks = pt a c + B) : h.load a = some c :=
  mem_blocks.mp (hb ▸ Multiset.mem_add.mpr (.inl (mem_pt.mpr rfl)))

theorem nodup_pt_add : (pt a c + B).Nodup ↔ (a, c) ∉ B ∧ B.Nodup := by
  rw [pt, Multiset.singleton_add, Multiset.nodup_cons]

/-- The other blocks are at other addresses. -/
theorem ne_of_blocks (hb : h.blocks = pt a c + B) {x : Nat × α} (hx : x ∈ B) : a ≠ x.1 := by
  intro he
  have hn : (pt a c + B).Nodup := hb ▸ nodup_blocks h
  have hl : h.load x.1 = some x.2 := mem_blocks.mp (hb ▸ Multiset.mem_add.mpr (.inr hx))
  rw [← he, load_of_blocks hb] at hl
  have hxe : x = (a, c) := Prod.ext he.symm (Option.some.inj hl).symm
  exact (nodup_pt_add.mp hn).1 (hxe ▸ hx)

theorem load_iff_of_blocks (hb : h.blocks = pt a c + B) {b : Nat} (hba : a ≠ b) (d : α) :
    h.load b = some d ↔ (b, d) ∈ B := by
  rw [← mem_blocks (x := (b, d)), hb, Multiset.mem_add, mem_pt]
  exact or_iff_right fun he => hba (congrArg Prod.fst he).symm

theorem blocks_alloc (h : Heap α) (c : α) : (h.alloc c).blocks = pt h.size c + h.blocks := by
  have hnew : ∀ x ∈ h.blocks, x.1 < h.size := fun x hx => lt_size_of_load (mem_blocks.mp hx)
  have hn : (pt h.size c + h.blocks).Nodup :=
    nodup_pt_add.mpr ⟨fun hm => absurd (hnew _ hm) (Nat.lt_irrefl _), nodup_blocks h⟩
  refine (blocks_eq_iff hn).mpr fun b d => ?_
  rw [Multiset.mem_add, mem_pt, mem_blocks]
  rcases Nat.lt_trichotomy b h.size with hlt | rfl | hgt
  · simp [load_alloc_of_lt hlt, Nat.ne_of_lt hlt]
  · simp [load_of_size_le (Nat.le_refl h.size), eq_comm]
  · have h1 : (h.alloc c).load b = none := load_of_size_le (by rw [size_alloc]; omega)
    have h2 : h.load b = none := load_of_size_le (by omega)
    simp [h1, h2, Nat.ne_of_gt hgt]

theorem blocks_store (hb : h.blocks = pt a c + B) (c' : α) :
    (h.store a c').blocks = pt a c' + B := by
  have hne : ∀ x ∈ B, a ≠ x.1 := fun x hx => ne_of_blocks hb hx
  have hn := (nodup_pt_add.mp (hb ▸ nodup_blocks h)).2
  refine (blocks_eq_iff (nodup_pt_add.mpr ⟨fun hm => hne _ hm rfl, hn⟩)).mpr fun b d => ?_
  rw [Multiset.mem_add, mem_pt]
  by_cases hab : a = b
  · subst hab
    rw [load_store_self (lt_size_of_load (load_of_blocks hb))]
    have hout : (a, d) ∉ B := fun hm => hne _ hm rfl
    simp [hout, eq_comm]
  · rw [load_store_ne hab, load_iff_of_blocks hb hab]
    simp [Ne.symm hab]

theorem blocks_free (hb : h.blocks = pt a c + B) : (h.free a).blocks = B := by
  have hne : ∀ x ∈ B, a ≠ x.1 := fun x hx => ne_of_blocks hb hx
  have hn := (nodup_pt_add.mp (hb ▸ nodup_blocks h)).2
  refine (blocks_eq_iff hn).mpr fun b d => ?_
  by_cases hab : a = b
  · subst hab
    have hlt : a < h.cells.length := lt_size_of_load (load_of_blocks hb)
    have hout : (a, d) ∉ B := fun hm => hne _ hm rfl
    simp [load, free, hlt, hout]
  · rw [load_free_ne hab, load_iff_of_blocks hb hab]

/-! ## Lists of all blocks -/

/-- The number of blocks. -/
def live (h : Heap α) : Nat := Multiset.card h.blocks

@[simp] theorem live_alloc (h : Heap α) (c : α) : (h.alloc c).live = h.live + 1 := by
  rw [live, blocks_alloc, Multiset.card_add, card_pt, live, Nat.add_comm]

/-- A block that is there, and the others. -/
theorem exists_blocks (hl : h.load a = some c) : ∃ B, h.blocks = pt a c + B := by
  obtain ⟨B, hB⟩ := Multiset.exists_cons_of_mem (mem_blocks (x := (a, c)) |>.mpr hl)
  exact ⟨B, hB.trans (Multiset.singleton_add _ _).symm⟩

theorem live_store (hl : h.load a = some c) (c' : α) : (h.store a c').live = h.live := by
  obtain ⟨B, hB⟩ := exists_blocks hl
  rw [live, live, blocks_store hB, hB, Multiset.card_add, Multiset.card_add, card_pt, card_pt]

theorem live_free (hl : h.load a = some c) : (h.free a).live + 1 = h.live := by
  obtain ⟨B, hB⟩ := exists_blocks hl
  rw [live, live, blocks_free hB, hB, Multiset.card_add, card_pt, Nat.add_comm]

/-- The heap has the blocks `bs` and no others. -/
def Fills (h : Heap α) (bs : List (Nat × α)) : Prop := h.blocks = (bs : Multiset (Nat × α))

namespace Fills

variable {bs cs : List (Nat × α)}

theorem exists_self (h : Heap α) : ∃ bs, h.Fills bs := ⟨_, rfl⟩

theorem perm (hf : h.Fills bs) (hp : bs.Perm cs) : h.Fills cs :=
  hf.trans (Multiset.coe_eq_coe.mpr hp)

theorem live_eq (hf : h.Fills bs) : h.live = bs.length := by
  rw [live, hf, Multiset.coe_card]

/-- They are owned. -/
theorem owns (hf : h.Fills bs) : Owns h bs := by
  have hload : ∀ b ∈ bs, h.load b.1 = some b.2 := fun b hb => mem_blocks.mp (hf ▸ hb)
  refine ⟨List.Nodup.map_on ?_ (Multiset.coe_nodup.mp (hf ▸ nodup_blocks h)), hload⟩
  intro b hb d hd he
  have hl := hload b hb
  rw [he, hload d hd] at hl
  exact Prod.ext he (Option.some.inj hl).symm

/-- Blocks that are owned are all there are, if there are so many. -/
theorem of_owns (ho : Owns h bs) (hl : h.live = bs.length) : h.Fills bs := by
  have hle : (bs : Multiset (Nat × α)) ≤ h.blocks :=
    (Multiset.le_iff_subset (Multiset.coe_nodup.mpr ho.nodup.of_map)).mpr fun b hb =>
      mem_blocks.mpr (ho.load b hb)
  exact (Multiset.eq_of_le_of_card_le hle (Nat.le_of_eq (hl.trans (Multiset.coe_card bs).symm))).symm

theorem free (hf : h.Fills ((a, c) :: bs)) : (h.free a).Fills bs :=
  blocks_free (hf.trans (Multiset.singleton_add (a, c) (bs : Multiset (Nat × α))).symm)

end Fills
end Heap

open Heap

variable {α β γ : Type}

/-- `m` returns `b` and changes nothing where the blocks `B` are. -/
def Reads (B : Multiset (Nat × α)) (m : HeapM α β) (b : β) : Prop :=
  ∀ h : Heap α, (∀ x ∈ B, h.load x.1 = some x.2) → m h = some (b, h)

namespace Reads

variable {B C : Multiset (Nat × α)} {m : HeapM α β} {f : β → HeapM α γ} {b : β} {d : γ}

theorem ret (b : β) : Reads B (pure b : HeapM α β) b := fun _ _ => rfl

theorem bind (hm : Reads B m b) (hf : Reads B (f b) d) : Reads B (m >>= f) d := by
  intro h hB
  show (m h).bind (fun p => f p.1 p.2) = _
  rw [hm h hB]
  exact hf h hB

/-- The blocks may be among others. -/
theorem mono (hm : Reads B m b) (hBC : B ⊆ C) : Reads C m b :=
  fun h hC => hm h fun x hx => hC x (hBC hx)

theorem load {a : Nat} {c : α} (hc : (a, c) ∈ B) : Reads B (HeapM.load (some a)) c := by
  intro h hB
  have hl : h.load a = some c := hB _ hc
  simp [HeapM.load, hl]

end Reads

/-- From the blocks `B`, `m` returns some `b` and leaves exactly some blocks `C` with `Q b C`. -/
def Linear (B : Multiset (Nat × α)) (m : HeapM α β) (Q : β → Multiset (Nat × α) → Prop) : Prop :=
  ∀ h F, h.blocks = B + F → ∃ b h' C, m h = some (b, h') ∧ Q b C ∧ h'.blocks = C + F

namespace Linear

variable {B C D : Multiset (Nat × α)} {m : HeapM α β} {Q Q' : β → Multiset (Nat × α) → Prop}
  {R : γ → Multiset (Nat × α) → Prop} {a : Nat} {c : α}

theorem ret {b : β} (hq : Q b B) : Linear B (pure b : HeapM α β) Q :=
  fun h _ hb => ⟨b, h, B, rfl, hq, hb⟩

theorem bind {f : β → HeapM α γ} (hm : Linear B m Q) (hf : ∀ b C, Q b C → Linear C (f b) R) :
    Linear B (m >>= f) R := by
  intro h F hb
  obtain ⟨b, h₁, C, hr, hq, hb₁⟩ := hm h F hb
  obtain ⟨d, h₂, D, hr₂, hq₂, hb₂⟩ := hf b C hq h₁ F hb₁
  refine ⟨d, h₂, D, ?_, hq₂, hb₂⟩
  show (m h).bind (fun p => f p.1 p.2) = _
  rw [hr]
  exact hr₂

theorem of_eq (hBC : B = C) (hm : Linear C m Q) : Linear B m Q := hBC ▸ hm

theorem conseq (hm : Linear B m Q) (hq : ∀ b C, Q b C → Q' b C) : Linear B m Q' := by
  intro h F hb
  obtain ⟨b, h', C, hr, hQ, hb'⟩ := hm h F hb
  exact ⟨b, h', C, hr, hq b C hQ, hb'⟩

/-- A computation as one with nothing behind it, for the rules below. -/
theorem of_bind_pure (hm : Linear B (m >>= pure) Q) : Linear B m Q := by
  rwa [bind_pure] at hm

/-- The frame rule. -/
theorem frame (D : Multiset (Nat × α)) (hm : Linear B m Q) :
    Linear (B + D) m fun b C => ∃ C', Q b C' ∧ C = C' + D := by
  intro h F hb
  obtain ⟨b, h', C, hr, hq, hb'⟩ := hm h (D + F) (by rw [hb, add_assoc])
  exact ⟨b, h', C + D, hr, ⟨C, hq, rfl⟩, by rw [hb', add_assoc]⟩

/-- A computation that has a specification, first, on some of the blocks. -/
theorem call {f : β → HeapM α γ} (hm : Linear C m Q) (D : Multiset (Nat × α)) (hB : B = C + D)
    (hf : ∀ b C', Q b C' → Linear (C' + D) (f b) R) : Linear B (m >>= f) R := by
  refine of_eq hB (bind (hm.frame D) ?_)
  rintro b _ ⟨C', hq, rfl⟩
  exact hf b C' hq

/-- The same at the end of a computation. -/
theorem last (hm : Linear C m Q) (D : Multiset (Nat × α)) (hB : B = C + D)
    (hq : ∀ b C', Q b C' → Q' b (C' + D)) : Linear B m Q' := by
  refine of_eq hB ((hm.frame D).conseq ?_)
  rintro b _ ⟨C', hC, rfl⟩
  exact hq b C' hC

section Operations

variable {f : β → HeapM α γ} {k : Unit → HeapM α γ} {g : Ptr → HeapM α γ} {b : β}

theorem read (hm : Reads B m b) (hf : Linear B (f b) R) : Linear B (m >>= f) R := by
  intro h F hb
  have hr : m h = some (b, h) := hm h fun x hx => mem_blocks.mp (by
    rw [hb]
    exact Multiset.mem_add.mpr (.inl hx))
  show ∃ d h' C, (m h).bind (fun p => f p.1 p.2) = _ ∧ _
  rw [hr]
  exact hf h F hb

theorem alloc (c : α) (hg : ∀ a, Linear (pt a c + B) (g (some a)) R) :
    Linear B (HeapM.alloc c >>= g) R := by
  refine bind (Q := fun p C => ∃ a, p = some a ∧ C = pt a c + B) ?_ ?_
  · intro h F hb
    exact ⟨some h.size, h.alloc c, _, rfl, ⟨h.size, rfl, rfl⟩, by rw [blocks_alloc, hb, add_assoc]⟩
  · rintro _ _ ⟨a, rfl, rfl⟩
    exact hg a

theorem store (D : Multiset (Nat × α)) (c' : α) (hB : B = pt a c + D)
    (hk : Linear (pt a c' + D) (k ()) R) : Linear B (HeapM.store (some a) c' >>= k) R := by
  refine bind (Q := fun _ C => C = pt a c' + D) ?_ ?_
  · intro h F hb
    rw [hB, add_assoc] at hb
    refine ⟨(), h.store a c', _, ?_, rfl, by rw [blocks_store hb, add_assoc]⟩
    simp [HeapM.store, load_of_blocks hb]
  · rintro _ _ rfl
    exact hk

theorem free (D : Multiset (Nat × α)) (hB : B = pt a c + D) (hk : Linear D (k ()) R) :
    Linear B (HeapM.free (some a) >>= k) R := by
  refine bind (Q := fun _ C => C = D) ?_ ?_
  · intro h F hb
    rw [hB, add_assoc] at hb
    exact ⟨(), h.free a, _, by simp [HeapM.free, load_of_blocks hb], rfl, blocks_free hb⟩
  · rintro _ _ rfl
    exact hk

end Operations

/-- `m` from a heap with the blocks `B` and no others. -/
theorem run (hm : Linear B m Q) {h : Heap α} (hb : h.blocks = B) :
    ∃ b h', m h = some (b, h') ∧ Q b h'.blocks := by
  obtain ⟨b, h', C, hr, hq, hb'⟩ := hm h 0 (by rw [hb, add_zero])
  rw [add_zero] at hb'
  exact ⟨b, h', hr, hb' ▸ hq⟩

end Linear
end RedisImpl
