import RedisImpl.Protocol.Items
import RedisImpl.Protocol.Walk

/-!
# Well-formed trees

`Laid h next prev node p`: the records at `p` in the memory `h` are the tree `node`, well formed for
the functions that walk over it. The tag of each base node is that of its record, an array has as
many elements as its size says, and the links between neighbours are each other's inverse.

* `laid_of_load`: a tree without flaws is laid out so.
* `laid_agree`: only a tree without flaws is.
-/

namespace RedisImpl

open Heap

mutual

/-- The records at `p` are the tree `node`, with these links at its root. -/
def Laid (h : Heap Cell) (next prev : Ptr) : Node → Nat → Prop
  | .bulk content, p => ∃ n c, h.load p = some (.bulk (some n) (some c) content.length) ∧
      h.load n = some (.base ⟨.bulkStr, next, prev⟩) ∧ h.load c = some (.chars (content ++ [0]))
  | .array size els, p => ∃ n content, h.load p = some (.array (some n) content size) ∧
      h.load n = some (.base ⟨.array, next, prev⟩) ∧ size = els.length ∧
      LaidChain h (some p) els content

/-- The chain at `q`, with what its first element points back to. -/
def LaidChain (h : Heap Cell) (prev : Ptr) : List Node → Ptr → Prop
  | [], q => q = none
  | e :: es, q => ∃ p next, q = some p ∧ Laid h next prev e p ∧ LaidChain h (some p) es next

end

namespace Shape

theorem toNodes_length (es : List (Shape false)) : (toNodes es).length = es.length := by
  induction es with
  | nil => rfl
  | cons e es ih => rw [toNodes, List.length_cons, List.length_cons, ih]

end Shape

namespace Lay

theorem shapes_length {s : Bool} (ts : List (Lay s)) : (shapes ts).length = ts.length := by
  induction ts with
  | nil => rfl
  | cons t ts ih => rw [shapes, List.length_cons, List.length_cons, ih]

end Lay

section Laid

variable {h : Heap Cell} {x : Stray}

mutual

/-- A tree whose blocks are in the memory, and which has no flaws. -/
theorem laid_of_load {next prev : Ptr} (t : Lay false)
    (hl : ∀ b ∈ t.blocks x next prev, h.load b.1 = some b.2) (hc : t.shape.flawed true = false) :
    Laid h next prev t.shape.toNode (t.ptr x) := by
  cases t with
  | bulk p node content bytes =>
    exact ⟨node, content, hl (p, _) (by simp [Lay.blocks]), hl (node, _) (by simp [Lay.blocks]),
      hl (content, _) (by simp [Lay.blocks])⟩
  | array p node size els =>
    simp only [Lay.shape, Shape.flawed, Bool.or_eq_false_iff, Bool.true_and,
      decide_eq_false_iff_not, not_not] at hc
    have hchain : LaidChain h (some p) (Shape.toNodes (Lay.shapes els)) (Lay.head x none els) :=
      laidChain_of_load els (fun b hb => hl b (by simp [Lay.blocks, hb])) hc.2
    refine ⟨node, Lay.head x none els, hl (p, _) (by simp [Lay.blocks]),
      hl (node, _) (by simp [Lay.blocks]), ?_, hchain⟩
    rw [Shape.toNodes_length]
    exact hc.1
  | void p node content type => cases hc
  | stray hs => cases hs

theorem laidChain_of_load {prev : Ptr} (ts : List (Lay false))
    (hl : ∀ b ∈ Lay.blocksList x none prev ts, h.load b.1 = some b.2)
    (hc : Shape.flawedList true (Lay.shapes ts) = false) :
    LaidChain h prev (Shape.toNodes (Lay.shapes ts)) (Lay.head x none ts) := by
  cases ts with
  | nil => rfl
  | cons t ts =>
    simp only [Lay.shapes, Shape.flawedList, Bool.or_eq_false_iff] at hc
    simp only [Lay.blocksList, List.mem_append] at hl
    exact ⟨t.ptr x, Lay.head x none ts, rfl, laid_of_load t (fun b hb => hl b (.inl hb)) hc.1,
      laidChain_of_load ts (fun b hb => hl b (.inr hb)) hc.2⟩

end

/-! ## Flaws show -/

/-- The record at strays, and a `BaseNode`, are no request. -/
theorem not_laid_stray {next prev sn sp : Ptr} {node : Node}
    (hp : h.load x.p = some (.array (some x.node) none 0))
    (hn : h.load x.node = some (.base ⟨.undefDtype, sn, sp⟩)) : ¬ Laid h next prev node x.p := by
  intro hl
  cases node with
  | bulk content =>
    obtain ⟨n, c, hp', -⟩ := hl
    rw [hp] at hp'
    cases hp'
  | array size els =>
    obtain ⟨n, c, hp', hn', -⟩ := hl
    rw [hp] at hp'
    cases hp'
    rw [hn] at hn'
    cases hn'

theorem not_laid_base {next prev : Ptr} {node : Node} {p : Nat} {b : BaseNode}
    (hp : h.load p = some (.base b)) : ¬ Laid h next prev node p := by
  intro hl
  cases node with
  | bulk content =>
    obtain ⟨n, c, hp', -⟩ := hl
    rw [hp] at hp'
    cases hp'
  | array size els =>
    obtain ⟨n, c, hp', -⟩ := hl
    rw [hp] at hp'
    cases hp'

/-- The blocks `bs` are in the memory, and the record at strays. -/
structure Loads (h : Heap Cell) (x : Stray) (bs : List (Nat × Cell)) : Prop where
  blocks : ∀ b ∈ bs, h.load b.1 = some b.2
  ptr : h.load x.p = some (.array (some x.node) none 0)
  node : ∃ sn sp, h.load x.node = some (.base ⟨.undefDtype, sn, sp⟩)

theorem Loads.mono {bs cs : List (Nat × Cell)} (hl : Loads h x cs) (hs : bs ⊆ cs) :
    Loads h x bs :=
  ⟨fun b hb => hl.blocks b (hs hb), hl.ptr, hl.node⟩

mutual

/-- Where the blocks of a tree are laid out as some request, the tree has no flaws, and the link to
the next element is the one that is there. -/
theorem laid_agree {next prev next' prev' : Ptr} {node : Node} (t : Lay true)
    (hb : Loads h x (t.blocks x next prev)) (hl : Laid h next' prev' node (t.ptr x)) :
    t.shape.flawed true = false ∧ next' = next := by
  cases t with
  | bulk p n content bytes =>
    have hp := hb.blocks (p, .bulk (some n) (some content) bytes.length) (by simp [Lay.blocks])
    have hn := hb.blocks (n, .base ⟨.bulkStr, next, prev⟩) (by simp [Lay.blocks])
    cases node with
    | bulk content' =>
      obtain ⟨n', c', hp', hn', -⟩ := hl
      obtain ⟨hnn, -, -⟩ := Cell.bulk.inj (Option.some.inj (hp.symm.trans hp'))
      cases hnn
      cases hn.symm.trans hn'
      exact ⟨rfl, rfl⟩
    | array size els =>
      -- a block has one content: it is no `ArrayNode`
      obtain ⟨n', c', hp', -⟩ := hl
      cases hp.symm.trans hp'
  | array p n size els =>
    have hp := hb.blocks (p, .array (some n) (Lay.head x none els) size) (by simp [Lay.blocks])
    have hn := hb.blocks (n, .base ⟨.array, next, prev⟩) (by simp [Lay.blocks])
    cases node with
    | bulk content' =>
      obtain ⟨n', c', hp', -⟩ := hl
      cases hp.symm.trans hp'
    | array size' els' =>
      obtain ⟨n', c', hp', hn', hsize, hchain⟩ := hl
      cases hp.symm.trans hp'
      cases hn.symm.trans hn'
      obtain ⟨hf, hlen⟩ := laidChain_agree els
        (hb.mono fun b hb => by rw [Lay.blocks]; exact List.mem_cons_of_mem _ (List.mem_cons_of_mem _ hb))
        hchain
      refine ⟨?_, rfl⟩
      simp only [Lay.shape, Shape.flawed, hf, Lay.shapes_length, ← hlen, hsize, ne_eq,
        not_true_eq_false, decide_false, Bool.and_false, Bool.or_false]
  | void p n content type =>
    have hp := hb.blocks (p, .array (some n) (some content) 1) (by simp [Lay.blocks])
    have hcont := hb.blocks (content, .base ⟨type, none, none⟩) (by simp [Lay.blocks])
    cases node with
    | bulk content' =>
      obtain ⟨n', c', hp', -⟩ := hl
      cases hp.symm.trans hp'
    | array size' els' =>
      obtain ⟨n', c', hp', -, hsize, hchain⟩ := hl
      cases hp.symm.trans hp'
      cases els' with
      | nil => cases hsize
      | cons e es =>
        -- its first element would be a bare `BaseNode`
        obtain ⟨q, next'', hq, hle, -⟩ := hchain
        cases hq
        exact absurd hle (not_laid_base hcont)
  | stray hs =>
    obtain ⟨sn, sp, hnode⟩ := hb.node
    exact absurd hl (not_laid_stray hb.ptr hnode)

theorem laidChain_agree {prev prev' : Ptr} {els : List Node} (ts : List (Lay true))
    (hb : Loads h x (Lay.blocksList x none prev ts))
    (hl : LaidChain h prev' els (Lay.head x none ts)) :
    Shape.flawedList true (Lay.shapes ts) = false ∧ els.length = ts.length := by
  cases ts with
  | nil =>
    cases els with
    | nil => exact ⟨rfl, rfl⟩
    | cons e es =>
      obtain ⟨p, next, hp, -⟩ := hl
      cases hp
  | cons t ts =>
    cases els with
    | nil => cases hl
    | cons e es =>
      obtain ⟨p, next, hp, hle, hls⟩ := hl
      cases hp
      rw [Lay.blocksList] at hb
      obtain ⟨hf, rfl⟩ := laid_agree t (hb.mono fun b hb => List.mem_append_left _ hb) hle
      obtain ⟨hfs, hlen⟩ := laidChain_agree ts (hb.mono fun b hb => List.mem_append_right _ hb) hls
      refine ⟨?_, by rw [List.length_cons, List.length_cons, hlen]⟩
      rw [Lay.shapes, Shape.flawedList, hf, hfs]
      rfl

end

end Laid

end RedisImpl
