import RedisImpl.Lib.Heap
import Mathlib.Data.List.Induction

/-!
# Chains of cells

`Follows next p as`: following the links `next` from `p` visits the cells `as` and then ends. Since
a cell has one link, the cells are different (`Follows.nodup`).

`Chain.blocks` are the blocks of a doubly linked list, for any cell that has a link to the one
before, a link to the one after, and a content. It can be followed both ways
(`Chain.follows_next`, `Chain.follows_prev`).
-/

namespace RedisImpl

/-- `next a` is the link of the cell at `a`, if there is a cell. -/
inductive Follows (next : Nat → Option Ptr) : Ptr → List Nat → Prop
  | done : Follows next none []
  | visit {a : Nat} {p : Ptr} {as : List Nat} : next a = some p → Follows next p as →
      Follows next (some a) (a :: as)

namespace Follows

variable {next : Nat → Option Ptr} {p : Ptr} {a : Nat} {as bs : List Nat}

theorem unique (h : Follows next p as) (h' : Follows next p bs) : as = bs := by
  induction h generalizing bs with
  | done =>
    cases h'
    rfl
  | visit hn _ ih =>
    cases h' with
    | visit hn' h' =>
      rw [hn] at hn'
      cases hn'
      rw [ih h']

/-- From a cell that is visited, the rest is visited. -/
theorem of_mem (h : Follows next p as) (ha : a ∈ as) :
    ∃ bs, Follows next (some a) (a :: bs) ∧ (a :: bs).length ≤ as.length := by
  induction h with
  | done => cases ha
  | visit hn hf ih =>
    rcases List.mem_cons.mp ha with rfl | ha
    · exact ⟨_, .visit hn hf, Nat.le_refl _⟩
    · obtain ⟨bs, hbs, hlen⟩ := ih ha
      exact ⟨bs, hbs, Nat.le_succ_of_le hlen⟩

/-- No cell is visited twice. -/
theorem nodup (h : Follows next p as) : as.Nodup := by
  induction h with
  | done => exact List.nodup_nil
  | @visit a p as hn hf ih =>
    refine List.nodup_cons.mpr ⟨fun ha => ?_, ih⟩
    obtain ⟨bs, hbs, hlen⟩ := hf.of_mem ha
    have heq := (Follows.visit hn hf).unique hbs
    rw [← heq, List.length_cons] at hlen
    exact absurd hlen (Nat.not_succ_le_self _)

end Follows

namespace Chain

variable {α β : Type}

/-- The first cell of a list, and the end of the list after it. -/
def head (next : Ptr) : List (Nat × β) → Ptr
  | [] => next
  | c :: _ => some c.1

/-- The last cell of a list, and what is before the list. -/
def last (prev : Ptr) : List (Nat × β) → Ptr
  | [] => prev
  | c :: cs => last (some c.1) cs

/-- The blocks of the cells `cs`, each at its address with its content: `link p n d` is a cell with
the link `p` to the one before and `n` to the one after. -/
def blocks (link : Ptr → Ptr → β → α) (prev next : Ptr) : List (Nat × β) → List (Nat × α)
  | [] => []
  | c :: cs => (c.1, link prev (head next cs) c.2) :: blocks link (some c.1) next cs

theorem head_append (next : Ptr) (cs ds : List (Nat × β)) :
    head next (cs ++ ds) = head (head next ds) cs := by
  cases cs with
  | nil => rfl
  | cons c cs => rfl

theorem last_append (prev : Ptr) (cs ds : List (Nat × β)) :
    last prev (cs ++ ds) = last (last prev cs) ds := by
  induction cs generalizing prev with
  | nil => rfl
  | cons c cs ih => exact ih _

theorem last_concat (prev : Ptr) (cs : List (Nat × β)) (c : Nat × β) :
    last prev (cs ++ [c]) = some c.1 := by
  rw [last_append]
  rfl

theorem last_eq_getLast? (cs : List (Nat × β)) : last none cs = (cs.map Prod.fst).getLast? := by
  induction cs using List.reverseRecOn with
  | nil => rfl
  | append_singleton cs c _ =>
    rw [last_concat, List.map_append, List.map_singleton, List.getLast?_concat]

variable {link : Ptr → Ptr → β → α}

/-- The cells are the blocks. -/
theorem map_fst_blocks (prev next : Ptr) (cs : List (Nat × β)) :
    (blocks link prev next cs).map Prod.fst = cs.map Prod.fst := by
  induction cs generalizing prev with
  | nil => rfl
  | cons c cs ih => rw [blocks, List.map_cons, List.map_cons, ih]

/-- Each cell has a block. -/
theorem exists_mem_blocks (prev next : Ptr) {cs : List (Nat × β)} {c : Nat × β} (hc : c ∈ cs) :
    ∃ p n, (c.1, link p n c.2) ∈ blocks link prev next cs := by
  induction cs generalizing prev with
  | nil => cases hc
  | cons d cs ih =>
    rcases List.mem_cons.mp hc with rfl | hc
    · exact ⟨prev, head next cs, List.mem_cons_self⟩
    · obtain ⟨p, n, hm⟩ := ih (some d.1) hc
      exact ⟨p, n, List.mem_cons_of_mem _ hm⟩

theorem blocks_append (prev next : Ptr) (cs ds : List (Nat × β)) :
    blocks link prev next (cs ++ ds) =
      blocks link prev (head next ds) cs ++ blocks link (last prev cs) next ds := by
  induction cs generalizing prev with
  | nil => rfl
  | cons c cs ih =>
    rw [List.cons_append, blocks, blocks, ih, head_append]
    rfl

theorem blocks_concat (prev next : Ptr) (cs : List (Nat × β)) (c : Nat × β) :
    blocks link prev next (cs ++ [c]) =
      blocks link prev (some c.1) cs ++ [(c.1, link (last prev cs) next c.2)] :=
  blocks_append prev next cs [c]

variable {step : Nat → Option Ptr} {cs : List (Nat × β)}

/-- Following the links to the cells after. -/
theorem follows_next {prev : Ptr}
    (hs : ∀ a p n d, (a, link p n d) ∈ blocks link prev none cs → step a = some n) :
    Follows step (head none cs) (cs.map Prod.fst) := by
  induction cs generalizing prev with
  | nil => exact .done
  | cons c cs ih =>
    have hrest : ∀ a p n d, (a, link p n d) ∈ blocks link (some c.1) none cs → step a = some n :=
      fun a p n d hm => hs a p n d (List.mem_cons_of_mem _ hm)
    exact .visit (hs _ _ _ _ List.mem_cons_self) (ih hrest)

/-- Following the links to the cells before. -/
theorem follows_prev {next : Ptr}
    (hs : ∀ a p n d, (a, link p n d) ∈ blocks link none next cs → step a = some p) :
    Follows step (last none cs) (cs.map Prod.fst).reverse := by
  induction cs using List.reverseRecOn generalizing next with
  | nil => exact .done
  | append_singleton cs c ih =>
    rw [blocks_concat] at hs
    rw [last_concat, List.map_append, List.map_singleton, List.reverse_concat]
    have hrest : ∀ a p n d, (a, link p n d) ∈ blocks link none (some c.1) cs → step a = some p :=
      fun a p n d hm => hs a p n d (List.mem_append_left _ hm)
    exact .visit (hs c.1 _ next c.2 (List.mem_append_right _ List.mem_cons_self)) (ih hrest)

end Chain
end RedisImpl
