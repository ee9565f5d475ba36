import Mathlib.Data.List.Nodup
import Mathlib.Data.List.Perm.Subperm

/-!
# A heap of blocks, and the blocks that a part of a program owns

A `Heap` has a cell for each block that was ever allocated, `none` once it is freed, so an address
is never given out twice.

`Owns h bs` is the assertion of separation logic for a list of blocks: the addresses are different
and each holds its cell. Lists stand for separating conjunctions: `++` joins two parts, and the
order does not matter (`Owns.perm`). The rules `Owns.alloc`, `Owns.store` and `Owns.free` say what
an operation does to the first block and leave the others, the frame, as they are.
-/

namespace RedisImpl

/-- A pointer: NULL or the address of a block. -/
abbrev Ptr := Option Nat

structure Heap (α : Type) where
  cells : List (Option α)

namespace Heap

variable {α : Type}

/-- A heap without blocks. -/
def empty : Heap α := ⟨[]⟩

def size (h : Heap α) : Nat := h.cells.length

/-- What the block at `a` holds, if there is one. -/
def load (h : Heap α) (a : Nat) : Option α := (h.cells[a]?).join

/-- The heap with a new block; its address is `h.size`. -/
def alloc (h : Heap α) (c : α) : Heap α := ⟨h.cells ++ [some c]⟩

def store (h : Heap α) (a : Nat) (c : α) : Heap α := ⟨h.cells.set a (some c)⟩

def free (h : Heap α) (a : Nat) : Heap α := ⟨h.cells.set a none⟩

theorem lt_size_of_load {h : Heap α} {a : Nat} {c : α} (hl : h.load a = some c) : a < h.size := by
  by_contra hn
  have : h.cells[a]? = none := List.getElem?_eq_none (Nat.not_lt.mp hn)
  rw [load, this] at hl
  cases hl

theorem load_of_size_le {h : Heap α} {a : Nat} (ha : h.size ≤ a) : h.load a = none := by
  have : h.cells[a]? = none := List.getElem?_eq_none ha
  rw [load, this]
  rfl

@[simp] theorem load_alloc_size (h : Heap α) (c : α) : (h.alloc c).load h.size = some c := by
  simp [load, alloc, size]

theorem load_alloc_of_lt {h : Heap α} {a : Nat} (ha : a < h.size) (c : α) :
    (h.alloc c).load a = h.load a := by
  rw [load, load, alloc, List.getElem?_append_left ha]

theorem load_store_self {h : Heap α} {a : Nat} (ha : a < h.size) (c : α) :
    (h.store a c).load a = some c := by
  rw [load, store, List.getElem?_set_self ha]
  rfl

theorem load_store_ne {h : Heap α} {a b : Nat} (hab : a ≠ b) (c : α) :
    (h.store a c).load b = h.load b := by
  rw [load, load, store, List.getElem?_set_ne hab]

theorem load_free_ne {h : Heap α} {a b : Nat} (hab : a ≠ b) : (h.free a).load b = h.load b := by
  rw [load, load, free, List.getElem?_set_ne hab]

@[simp] theorem size_alloc (h : Heap α) (c : α) : (h.alloc c).size = h.size + 1 := by
  simp [size, alloc]

@[simp] theorem size_store (h : Heap α) (a : Nat) (c : α) : (h.store a c).size = h.size := by
  simp [size, store]

@[simp] theorem size_free (h : Heap α) (a : Nat) : (h.free a).size = h.size := by
  simp [size, free]

/-- The blocks `bs` are at different addresses and hold what `bs` says. -/
structure Owns (h : Heap α) (bs : List (Nat × α)) : Prop where
  nodup : (bs.map Prod.fst).Nodup
  load : ∀ b ∈ bs, h.load b.1 = some b.2

namespace Owns

variable {h : Heap α} {bs cs : List (Nat × α)} {a : Nat} {c c' : α}

theorem nil (h : Heap α) : Owns h [] := ⟨List.nodup_nil, fun _ hb => absurd hb List.not_mem_nil⟩

theorem perm (ho : Owns h bs) (hp : bs.Perm cs) : Owns h cs where
  nodup := (hp.map Prod.fst).nodup_iff.mp ho.nodup
  load b hb := ho.load b (hp.mem_iff.mpr hb)

/-- What the blocks of a part hold. -/
theorem load_of_mem (ho : Owns h bs) (hm : (a, c) ∈ bs) : h.load a = some c := ho.load _ hm

theorem left (ho : Owns h (bs ++ cs)) : Owns h bs where
  nodup := by
    have := ho.nodup
    rw [List.map_append] at this
    exact (List.nodup_append.mp this).1
  load b hb := ho.load b (List.mem_append_left _ hb)

theorem right (ho : Owns h (bs ++ cs)) : Owns h cs := (ho.perm List.perm_append_comm).left

/-- Addresses of owned blocks are below the size of the heap. -/
theorem lt_size (ho : Owns h bs) (hm : (a, c) ∈ bs) : a < h.size :=
  lt_size_of_load (ho.load_of_mem hm)

/-- There are at most as many owned blocks as addresses. -/
theorem length_le (ho : Owns h bs) : bs.length ≤ h.size := by
  have hsub : bs.map Prod.fst ⊆ List.range h.size := by
    intro x hx
    obtain ⟨b, hb, rfl⟩ := List.mem_map.mp hx
    exact List.mem_range.mpr (ho.lt_size hb)
  have hle := (List.subperm_of_subset ho.nodup hsub).length_le
  rwa [List.length_map, List.length_range] at hle

/-- Every heap is owned by the list of its blocks. -/
theorem exists_all (h : Heap α) : ∃ bs, Owns h bs ∧ ∀ a c, h.load a = some c → (a, c) ∈ bs := by
  refine ⟨(List.range h.size).filterMap fun a => (h.load a).map fun c => (a, c), ⟨?_, ?_⟩, ?_⟩
  · have hfst : ((List.range h.size).filterMap fun a => (h.load a).map fun c => (a, c)).map Prod.fst =
        (List.range h.size).filter fun a => (h.load a).isSome := by
      rw [List.map_filterMap, ← List.filterMap_eq_filter]
      refine List.filterMap_congr fun a _ => ?_
      cases hl : h.load a <;> simp [Option.guard, hl]
    rw [hfst]
    exact List.nodup_range.filter _
  · rintro ⟨a, c⟩ hb
    obtain ⟨a', -, hc⟩ := List.mem_filterMap.mp hb
    obtain ⟨c', hl, he⟩ := Option.map_eq_some_iff.mp hc
    cases he
    exact hl
  · intro a c hl
    exact List.mem_filterMap.mpr ⟨a, List.mem_range.mpr (lt_size_of_load hl), by rw [hl]; rfl⟩

protected theorem alloc (ho : Owns h bs) (c : α) : Owns (h.alloc c) ((h.size, c) :: bs) where
  nodup := by
    rw [List.map_cons, List.nodup_cons]
    refine ⟨fun hm => ?_, ho.nodup⟩
    obtain ⟨b, hb, hbe⟩ := List.mem_map.mp hm
    exact absurd (ho.lt_size hb) (by rw [hbe]; exact Nat.lt_irrefl _)
  load b hb := by
    rcases List.mem_cons.mp hb with rfl | hb
    · exact load_alloc_size h c
    · rw [load_alloc_of_lt (ho.lt_size hb)]
      exact ho.load b hb

/-- The address of the first block is not one of the others. -/
theorem ne_of_cons (ho : Owns h ((a, c) :: bs)) {b : Nat × α} (hb : b ∈ bs) : a ≠ b.1 := by
  intro he
  have hn := ho.nodup
  rw [List.map_cons, List.nodup_cons] at hn
  exact hn.1 (List.mem_map.mpr ⟨b, hb, he.symm⟩)

theorem tail (ho : Owns h ((a, c) :: bs)) : Owns h bs where
  nodup := by
    have hn := ho.nodup
    rw [List.map_cons, List.nodup_cons] at hn
    exact hn.2
  load b hb := ho.load b (List.mem_cons_of_mem _ hb)

protected theorem store (ho : Owns h ((a, c) :: bs)) (c' : α) :
    Owns (h.store a c') ((a, c') :: bs) where
  nodup := ho.nodup
  load b hb := by
    rcases List.mem_cons.mp hb with rfl | hb
    · exact load_store_self (ho.lt_size List.mem_cons_self) c'
    · rw [load_store_ne (ho.ne_of_cons hb)]
      exact ho.tail.load b hb

protected theorem free (ho : Owns h ((a, c) :: bs)) : Owns (h.free a) bs where
  nodup := ho.tail.nodup
  load b hb := by
    rw [load_free_ne (ho.ne_of_cons hb)]
    exact ho.tail.load b hb

end Owns
end Heap
end RedisImpl
