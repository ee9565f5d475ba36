import RedisImpl.Protocol.Layout
import RedisImpl.Protocol.Visits
import Mathlib.Data.List.Induction

/-!
# Walking over a tree

`delete_array`, `print_array` and `view` on the trees of `Protocol/Layout.lean` (without strays).

* `deleteArrayVisits_clean`: deleting visits the records of the elements, each once, and frees their
  blocks, also where the chain is not finished; if there is a `void` in it, it is a fault.
* `printLoop_list`, `viewLoop_list`: printing and looking at a tree without a `void` leave the
  memory alone, and the commands see the tree.
-/

namespace RedisImpl

open Heap

namespace Lay

variable {s : Bool}

mutual

/-- The number of elements, the root included. -/
def count : Lay s → Nat
  | bulk .. => 1
  | array _ _ _ els => countList els + 1
  | void .. => 1
  | stray _ => 1

def countList : List (Lay s) → Nat
  | [] => 0
  | t :: ts => t.count + countList ts

end

mutual

/-- The records of a tree, the root's first. -/
def ptrs (x : Stray) : Lay s → List Nat
  | bulk p _ _ _ => [p]
  | array p _ _ els => p :: ptrsList x els
  | void p _ _ _ => [p]
  | stray _ => [x.p]

def ptrsList (x : Stray) : List (Lay s) → List Nat
  | [] => []
  | t :: ts => t.ptrs x ++ ptrsList x ts

end

theorem count_pos (t : Lay s) : 0 < t.count := by
  cases t <;> simp [count]

theorem length_le_count (ts : List (Lay s)) : ts.length ≤ countList ts := by
  induction ts with
  | nil => exact Nat.le_refl _
  | cons t ts ih =>
    have := t.count_pos
    simp only [countList, List.length_cons]
    omega

mutual

/-- Each element but the strays has a block. -/
theorem count_le_blocks (x : Stray) (next prev : Ptr) (t : Lay false) :
    t.count ≤ (t.blocks x next prev).length := by
  cases t with
  | bulk p node content bytes => simp [count, blocks]
  | array p node size els =>
    have h := countList_le_blocks x none (some p) els
    simp only [count, blocks, List.length_cons]
    omega
  | void p node content type => simp [count, blocks]
  | stray h => cases h

theorem countList_le_blocks (x : Stray) (next prev : Ptr) (ts : List (Lay false)) :
    countList ts ≤ (blocksList x next prev ts).length := by
  cases ts with
  | nil => exact Nat.zero_le _
  | cons t ts =>
    have h1 := count_le_blocks x (head x next ts) prev t
    have h2 := countList_le_blocks x next (some (t.ptr x)) ts
    simp only [countList, blocksList, List.length_append]
    omega

end

theorem ptr_mem_ptrs (x : Stray) (t : Lay s) : t.ptr x ∈ t.ptrs x := by
  cases t <;> exact List.mem_cons_self

theorem ptrsList_append (x : Stray) (ts us : List (Lay s)) :
    ptrsList x (ts ++ us) = ptrsList x ts ++ ptrsList x us := by
  induction ts with
  | nil => rfl
  | cons t ts ih => rw [List.cons_append, ptrsList, ptrsList, ih, List.append_assoc]

/-- The elements of a chain are among its records. -/
theorem ptr_mem_ptrsList (x : Stray) {t : Lay s} {ts : List (Lay s)} (ht : t ∈ ts) :
    t.ptr x ∈ ptrsList x ts := by
  induction ts with
  | nil => cases ht
  | cons u ts ih =>
    rw [ptrsList]
    rcases List.mem_cons.mp ht with rfl | ht
    · exact List.mem_append_left _ (ptr_mem_ptrs x t)
    · exact List.mem_append_right _ (ih ht)

mutual

/-- The records are blocks. -/
theorem ptrs_sublist (x : Stray) (next prev : Ptr) (t : Lay false) :
    (t.ptrs x).Sublist ((t.blocks x next prev).map Prod.fst) := by
  cases t with
  | bulk p node content bytes => exact List.singleton_sublist.mpr (by simp [blocks])
  | array p node size els => exact ((ptrsList_sublist x none (some p) els).cons_cons p).cons node
  | void p node content type => exact List.singleton_sublist.mpr (by simp [blocks])
  | stray h => cases h

theorem ptrsList_sublist (x : Stray) (next prev : Ptr) (ts : List (Lay false)) :
    (ptrsList x ts).Sublist ((blocksList x next prev ts).map Prod.fst) := by
  cases ts with
  | nil => exact List.Sublist.refl _
  | cons t ts =>
    rw [ptrsList, blocksList, List.map_append]
    exact (ptrs_sublist x _ _ t).append (ptrsList_sublist x _ _ ts)

end

/-- The records of a tree that is owned are different, and none of the frame's. -/
theorem ptrs_apart {x : Stray} {h : Heap Cell} {next prev : Ptr} {t : Lay false}
    {F : List (Nat × Cell)} (ho : Owns h (t.blocks x next prev ++ F)) :
    (t.ptrs x).Nodup ∧ ∀ a ∈ t.ptrs x, a ∉ F.map Prod.fst := by
  have hn := ho.nodup
  rw [List.map_append] at hn
  obtain ⟨ht, -, hd⟩ := List.nodup_append.mp hn
  have hsub := ptrs_sublist x next prev t
  exact ⟨hsub.nodup ht, fun a ha hF => hd a (hsub.subset ha) a hF rfl⟩

end Lay

section Walk

variable {w : World} {x : Stray} {F : List (Nat × Cell)}

/-- Freeing a block that is owned. -/
theorem free_owns {a : Nat} {c : Cell} (ho : Owns w.heap ((a, c) :: F)) :
    ∃ h, free (some a) w = .ok ((), { w with heap := h }) ∧ Owns h F :=
  ⟨_, free_ok (ho.load_of_mem List.mem_cons_self), ho.free⟩

/-- A `BaseNode` taken for an element. -/
theorem deleteVisits_base (fuel : Nat) {b : Nat} {base : BaseNode}
    (h : w.heap.load b = some (.base base)) : ∃ e, deleteVisits fuel (some b) w = .error e := by
  cases fuel with
  | zero => exact ⟨.timeout, rfl⟩
  | succ fuel => exact ⟨.misread, M.bind_error (nodeOf_base h)⟩

/-- A bulk string at the front of the chain. -/
theorem deleteVisits_bulk (fuel : Nat) {next prev : Ptr} {p node content : Nat} {bytes : Bytes}
    (ho : Owns w.heap ((Lay.bulk p node content bytes : Lay false).blocks x next prev ++ F)) :
    ∃ h, deleteVisits (fuel + 1) (some p) w =
        (do let later ← deleteVisits fuel next; return p :: later) { w with heap := h } ∧
      Owns h F := by
  have hp := ho.load_of_mem (a := p) (c := .bulk (some node) (some content) bytes.length)
    (by simp [Lay.blocks])
  obtain ⟨h1, hr1, ho1⟩ := free_owns ho
  obtain ⟨h2, hr2, ho2⟩ := free_owns (w := { w with heap := h1 })
    (ho1.perm (by exact List.Perm.swap (content, .chars (bytes ++ [0])) _ F))
  obtain ⟨h3, hr3, ho3⟩ := free_owns (w := { w with heap := h2 }) ho2
  refine ⟨h3, ?_, ho3⟩
  rw [deleteVisits, M.bind_ok (nodeOf_owns ho List.mem_cons_self (hasNode_bulk ..)),
    M.bind_ok (baseOf_owns ho)]
  show (load (some p) >>= _) w = _
  rw [M.bind_ok (load_ok hp)]
  exact (M.bind_ok hr1).trans ((M.bind_ok hr2).trans (M.bind_ok hr3))

/-- An array at the front: its elements, its base node, and the rest of the chain. -/
theorem deleteVisits_array (fuel : Nat) {next prev content : Ptr} {p node : Nat} {size : Int}
    (ho : Owns w.heap ((node, .base ⟨.array, next, prev⟩) ::
      (p, .array (some node) content size) :: F)) :
    deleteVisits (fuel + 1) (some p) w =
      (do
        let below ← deleteVisits fuel content
        free (some node)
        let later ← deleteVisits fuel next
        return p :: (below ++ later)) w := by
  have hp := ho.load_of_mem (a := p) (c := .array (some node) content size) (by simp)
  rw [deleteVisits, M.bind_ok (nodeOf_owns ho List.mem_cons_self (hasNode_array ..)),
    M.bind_ok (baseOf_owns ho)]
  show (load (some p) >>= _) w = _
  rw [M.bind_ok (load_ok hp)]

/-- The elements of an array first, and the array's own blocks and the rest of the chain after
them. -/
theorem owns_array_els {h : Heap Cell} {next prev : Ptr} {p node : Nat} {size : Int}
    {els : List (Lay false)}
    (ho : Owns h ((Lay.array p node size els).blocks x next prev ++ F)) :
    Owns h (Lay.blocksList x none (some p) els ++ ((node, .base ⟨.array, next, prev⟩) ::
      (p, .array (some node) (Lay.head x none els) size) :: F)) := by
  apply ho.perm
  rw [Lay.blocks, List.cons_append, List.cons_append]
  exact (List.perm_middle.trans (List.perm_middle.cons _)).symm

/-- `delete_array(current, 0)` on a chain without a `void`. -/
theorem deleteVisits_clean {fuel : Nat} {prev : Ptr} {ts : List (Lay false)}
    (hf : Lay.countList ts ≤ fuel) (hc : Shape.spoiledList (Lay.shapes ts) = false)
    (ho : Owns w.heap (Lay.blocksList x none prev ts ++ F)) :
    ∃ h, deleteVisits fuel (Lay.head x none ts) w =
        .ok (Lay.ptrsList x ts, { w with heap := h }) ∧ Owns h F := by
  induction fuel generalizing ts prev w F with
  | zero =>
    cases ts with
    | nil => exact ⟨w.heap, rfl, ho⟩
    | cons t ts =>
      have := t.count_pos
      simp only [Lay.countList] at hf
      omega
  | succ fuel ih =>
    cases ts with
    | nil => exact ⟨w.heap, rfl, ho⟩
    | cons t ts =>
      simp only [Lay.shapes, Shape.spoiledList, Bool.or_eq_false_iff] at hc
      rw [Lay.blocksList, List.append_assoc] at ho
      cases t with
      | bulk p node content bytes =>
        simp only [Lay.countList, Lay.count] at hf
        obtain ⟨h, hr, ho'⟩ := deleteVisits_bulk fuel ho
        obtain ⟨h', hr', ho''⟩ := ih (w := { w with heap := h }) (by omega) hc.2 ho'
        exact ⟨h', hr.trans (M.bind_ok hr'), ho''⟩
      | array p node size els =>
        simp only [Lay.countList, Lay.count] at hf
        obtain ⟨h1, hr1, ho1⟩ := ih (by omega) hc.1 (owns_array_els ho)
        obtain ⟨h2, hr2, ho2⟩ := free_owns (w := { w with heap := h1 }) ho1
        obtain ⟨h3, hr3, ho3⟩ := ih (w := { w with heap := h2 }) (by omega) hc.2 ho2.tail
        refine ⟨h3, ?_, ho3⟩
        exact (deleteVisits_array fuel ho).trans
          ((M.bind_ok hr1).trans ((M.bind_ok hr2).trans (M.bind_ok hr3)))
      | void p node content type => cases hc.1
      | stray h => cases h

/-- And with one. -/
theorem deleteVisits_spoiled {fuel : Nat} {prev : Ptr} {ts : List (Lay false)}
    (hc : Shape.spoiledList (Lay.shapes ts) = true) (hf : Lay.countList ts ≤ fuel)
    (ho : Owns w.heap (Lay.blocksList x none prev ts ++ F)) :
    ∃ e, deleteVisits fuel (Lay.head x none ts) w = .error e := by
  induction fuel generalizing ts prev w F with
  | zero =>
    cases ts with
    | nil => cases hc
    | cons t ts => exact ⟨.timeout, rfl⟩
  | succ fuel ih =>
    cases ts with
    | nil => cases hc
    | cons t ts =>
      simp only [Lay.shapes, Shape.spoiledList, Bool.or_eq_true] at hc
      rw [Lay.blocksList, List.append_assoc] at ho
      cases t with
      | bulk p node content bytes =>
        simp only [Lay.countList, Lay.count] at hf
        obtain ⟨h, hr, ho'⟩ := deleteVisits_bulk fuel ho
        obtain ⟨e, he⟩ := ih (w := { w with heap := h }) (hc.resolve_left Bool.false_ne_true)
          (by omega) ho'
        exact ⟨e, hr.trans (M.bind_error he)⟩
      | array p node size els =>
        simp only [Lay.countList, Lay.count] at hf
        have hels := owns_array_els ho
        cases hs : Shape.spoiledList (Lay.shapes els) with
        | true =>
          obtain ⟨e, he⟩ := ih hs (by omega) hels
          exact ⟨e, (deleteVisits_array fuel ho).trans (M.bind_error he)⟩
        | false =>
          -- the elements are freed, and the fault is behind the array
          obtain ⟨h1, hr1, ho1⟩ := deleteVisits_clean (by omega : Lay.countList els ≤ fuel) hs hels
          obtain ⟨h2, hr2, ho2⟩ := free_owns (w := { w with heap := h1 }) ho1
          have hts := hc.resolve_left (by rw [Lay.shape, Shape.spoiled, hs]; decide)
          obtain ⟨e, he⟩ := ih (w := { w with heap := h2 }) hts (by omega) ho2.tail
          exact ⟨e, (deleteVisits_array fuel ho).trans
            ((M.bind_ok hr1).trans ((M.bind_ok hr2).trans (M.bind_error he)))⟩
      | void p node content type =>
        have hb : w.heap.load content = some (.base ⟨type, none, none⟩) :=
          ho.load_of_mem (by simp [Lay.blocks])
        obtain ⟨e, he⟩ := deleteVisits_base fuel hb
        exact ⟨e, (deleteVisits_array fuel ho).trans (M.bind_error he)⟩
      | stray h => cases h

/-- Going back from an element to the one before it, if there is one. -/
theorem rewindVisits_lay (fuel : Nat) {next prev : Ptr} (t : Lay false)
    (ho : Owns w.heap (t.blocks x next prev ++ F)) :
    rewindVisits (fuel + 1) (some (t.ptr x)) w =
      prev.elim (return (some (t.ptr x), [t.ptr x]) : M (Ptr × List Nat)) (fun q => do
        let r ← rewindVisits fuel (some q)
        return (r.1, t.ptr x :: r.2)) w := by
  cases t with
  | bulk p node content bytes =>
    rw [rewindVisits, Lay.ptr, M.bind_ok (nodeOf_owns ho List.mem_cons_self (hasNode_bulk ..)),
      M.bind_ok (baseOf_owns ho)]
    cases prev <;> rfl
  | array p node size els =>
    rw [rewindVisits, Lay.ptr, M.bind_ok (nodeOf_owns ho List.mem_cons_self (hasNode_array ..)),
      M.bind_ok (baseOf_owns ho)]
    cases prev <;> rfl
  | void p node content type =>
    rw [rewindVisits, Lay.ptr, M.bind_ok (nodeOf_owns ho List.mem_cons_self (hasNode_array ..)),
      M.bind_ok (baseOf_owns ho)]
    cases prev <;> rfl
  | stray h => cases h

theorem last_some (p : Nat) (ts : List (Lay false)) : ∃ q, Lay.last x (some p) ts = some q := by
  induction ts generalizing p with
  | nil => exact ⟨p, rfl⟩
  | cons t ts ih => exact ih _

/-- From the last element of a chain back to the array, past every element of the chain. -/
theorem rewindVisits_last {fuel p node : Nat} {content : Ptr} {size : Int} (next : Ptr)
    (ts : List (Lay false)) (hf : ts.length < fuel)
    (ho : Owns w.heap (Lay.blocksList x next (some p) ts ++ ((node, .base ⟨.array, none, none⟩) ::
      (p, .array (some node) content size) :: F))) :
    rewindVisits fuel (Lay.last x (some p) ts) w =
      .ok ((some p, (ts.map (Lay.ptr x)).reverse ++ [p]), w) := by
  induction ts using List.reverseRecOn generalizing fuel next F with
  | nil =>
    obtain ⟨fuel, rfl⟩ : ∃ k, fuel = k + 1 := ⟨fuel - 1, by simp at hf; omega⟩
    rw [Lay.last, rewindVisits, M.bind_ok (nodeOf_owns ho List.mem_cons_self (hasNode_array ..)),
      M.bind_ok (baseOf_owns ho)]
    rfl
  | append_singleton ts t ih =>
    obtain ⟨fuel, rfl⟩ : ∃ k, fuel = k + 1 := ⟨fuel - 1, by simp at hf; omega⟩
    obtain ⟨q, hq⟩ := last_some (x := x) p ts
    rw [Lay.blocksList_concat, hq, List.append_assoc] at ho
    have ho' := ho.perm (by exact List.Perm.append_left _ List.perm_append_comm)
    have ht := ho.perm (by exact List.perm_append_comm)
    rw [List.append_assoc] at ht
    have hlen : ts.length < fuel := by
      rw [List.length_append, List.length_singleton] at hf
      omega
    have hback := ih _ hlen ho'
    rw [hq] at hback
    rw [Lay.last_concat, List.map_append, List.reverse_append]
    exact (rewindVisits_lay fuel t ht).trans (M.bind_ok hback)

variable {p node : Nat} {size : Int} {els : List (Lay false)}

/-- From the last element of an array. -/
theorem rewindVisits_array
    (ho : Owns w.heap ((Lay.array p node size els).blocks x none none ++ F)) :
    rewindVisits (w.heap.size + 1) (Lay.last x (some p) els) w =
      .ok ((some p, (els.map (Lay.ptr x)).reverse ++ [p]), w) := by
  have hels := owns_array_els ho
  have hle := hels.length_le
  have hcount := Lay.length_le_count els
  have hblocks := Lay.countList_le_blocks x none (some p) els
  rw [List.length_append] at hle
  exact rewindVisits_last _ _ (by omega) hels

/-- A tree as a chain of its own. -/
theorem owns_chain {t : Lay false} (ho : Owns w.heap (t.blocks x none none ++ F)) :
    Lay.countList [t] ≤ w.heap.size + 1 ∧ Owns w.heap (Lay.blocksList x none none [t] ++ F) := by
  have hle := ho.length_le
  have hblocks := Lay.count_le_blocks x none none t
  rw [List.length_append] at hle
  refine ⟨?_, ?_⟩
  · simp only [Lay.countList]
    omega
  · rw [Lay.blocksList, Lay.blocksList, List.append_nil]
    exact ho

/-- `delete_array(q, 1)`, where the walk back ends at the root of a tree: it visits the tree and
frees its blocks. -/
theorem deleteArrayVisits_clean {t : Lay false} {q : Nat} {back : List Nat}
    (ho : Owns w.heap (t.blocks x none none ++ F))
    (hr : rewindVisits (w.heap.size + 1) (some q) w = .ok ((some (t.ptr x), back), w))
    (hc : t.shape.spoiled = false) :
    ∃ h, deleteArrayVisits (some q) w = .ok (⟨back, t.ptrs x⟩, { w with heap := h }) ∧
      Owns h F := by
  obtain ⟨hf, hchain⟩ := owns_chain ho
  obtain ⟨h, hd, ho'⟩ := deleteVisits_clean hf (by simp [Lay.shapes, Shape.spoiledList, hc]) hchain
  rw [Lay.ptrsList, Lay.ptrsList, List.append_nil] at hd
  exact ⟨h, (M.bind_ok hr).trans (M.bind_ok hd), ho'⟩

theorem deleteArrayVisits_spoiled {t : Lay false} {q : Nat} {back : List Nat}
    (ho : Owns w.heap (t.blocks x none none ++ F))
    (hr : rewindVisits (w.heap.size + 1) (some q) w = .ok ((some (t.ptr x), back), w))
    (hc : t.shape.spoiled = true) : ∃ e, deleteArrayVisits (some q) w = .error e := by
  obtain ⟨hf, hchain⟩ := owns_chain ho
  obtain ⟨e, hd⟩ := deleteVisits_spoiled (by simp [Lay.shapes, Shape.spoiledList, hc]) hf hchain
  exact ⟨e, (M.bind_ok hr).trans (M.bind_error hd)⟩

/-- `delete_array(t, 1)` for a finished tree. -/
theorem deleteArrayVisits_root {t : Lay false} (ho : Owns w.heap (t.blocks x none none ++ F))
    (hc : t.shape.spoiled = false) :
    ∃ h, deleteArrayVisits (some (t.ptr x)) w =
        .ok (⟨[t.ptr x], t.ptrs x⟩, { w with heap := h }) ∧ Owns h F :=
  deleteArrayVisits_clean ho (rewindVisits_lay w.heap.size t ho) hc

theorem deleteArray_of_visits {q : Ptr} {visits : Visits} {v : World}
    (h : deleteArrayVisits q w = .ok (visits, v)) : deleteArray q w = .ok ((), v) := by
  rw [← deleteArrayVisits_erase, map_run, h]
  rfl

theorem deleteArray_of_error {q : Ptr} {e : Fault} (h : deleteArrayVisits q w = .error e) :
    deleteArray q w = .error e := by
  rw [← deleteArrayVisits_erase, map_run, h]
  rfl

end Walk

/-! ## Printing, and what the commands see -/

namespace Shape

mutual

/-- The request that a shape stands for; a `void` stands for an array without elements. -/
def toNode : Shape false → Node
  | bulk content => .bulk content
  | array size els => .array size (toNodes els)
  | void _ => .array 0 []

def toNodes : List (Shape false) → List Node
  | [] => []
  | e :: es => e.toNode :: toNodes es

end

end Shape

section Look

variable {w : World} {x : Stray} {F : List (Nat × Cell)} {next prev : Ptr} {p node content : Nat}
  {bytes : Bytes} {size : Int}

theorem printLoop_bulk (fuel : Nat)
    (ho : Owns w.heap ((Lay.bulk p node content bytes : Lay false).blocks x next prev ++ F)) :
    printLoop (fuel + 1) (some p) w = printLoop fuel next w := by
  have hp := ho.load_of_mem (a := p) (c := .bulk (some node) (some content) bytes.length)
    (by simp [Lay.blocks])
  have hc := ho.load_of_mem (a := content) (c := .chars (bytes ++ [0])) (by simp [Lay.blocks])
  have hs : printString (some content) w = .ok ((), w) := by
    rw [printString, if_pos (Option.isSome_some), M.bind_ok (load_ok hc)]
    simp only [List.mem_append, List.mem_singleton, or_true, not_true_eq_false, if_false]
    rfl
  rw [printLoop, M.bind_ok (nodeOf_owns ho List.mem_cons_self (hasNode_bulk ..)),
    M.bind_ok (baseOf_owns ho)]
  show (load (some p) >>= _) w = _
  rw [M.bind_ok (load_ok hp)]
  exact M.bind_ok hs

theorem printLoop_array (fuel : Nat) {content : Ptr}
    (ho : Owns w.heap ((node, .base ⟨.array, next, prev⟩) ::
      (p, .array (some node) content size) :: F)) :
    printLoop (fuel + 1) (some p) w = (do printLoop fuel content; printLoop fuel next) w := by
  have hp := ho.load_of_mem (a := p) (c := .array (some node) content size) (by simp)
  rw [printLoop, M.bind_ok (nodeOf_owns ho List.mem_cons_self (hasNode_array ..)),
    M.bind_ok (baseOf_owns ho)]
  show (load (some p) >>= _) w = _
  rw [M.bind_ok (load_ok hp)]

/-- `print_array` on a chain without a `void`. -/
theorem printLoop_list {fuel : Nat} {prev : Ptr} {ts : List (Lay false)}
    (hf : Lay.countList ts ≤ fuel) (hc : Shape.spoiledList (Lay.shapes ts) = false)
    (ho : Owns w.heap (Lay.blocksList x none prev ts ++ F)) :
    printLoop fuel (Lay.head x none ts) w = .ok ((), w) := by
  induction fuel generalizing ts prev F with
  | zero =>
    cases ts with
    | nil => rfl
    | cons t ts =>
      have := t.count_pos
      simp only [Lay.countList] at hf
      omega
  | succ fuel ih =>
    cases ts with
    | nil => rfl
    | cons t ts =>
      simp only [Lay.shapes, Shape.spoiledList, Bool.or_eq_false_iff] at hc
      rw [Lay.blocksList, List.append_assoc] at ho
      have hrest := ho.perm List.perm_append_comm
      rw [List.append_assoc] at hrest
      cases t with
      | bulk p node content bytes =>
        simp only [Lay.countList, Lay.count] at hf
        exact (printLoop_bulk fuel ho).trans (ih (by omega) hc.2 hrest)
      | array p node size els =>
        simp only [Lay.countList, Lay.count] at hf
        have hels := ih (by omega) hc.1 (owns_array_els ho)
        exact (printLoop_array fuel ho).trans ((M.bind_ok hels).trans (ih (by omega) hc.2 hrest))
      | void p node content type => cases hc.1
      | stray h => cases h

theorem viewLoop_bulk {fuel : Nat} {ns : List Node} (hns : viewLoop fuel next w = .ok (ns, w))
    (ho : Owns w.heap ((Lay.bulk p node content bytes : Lay false).blocks x next prev ++ F)) :
    viewLoop (fuel + 1) (some p) w = .ok (.bulk bytes :: ns, w) := by
  have hp := ho.load_of_mem (a := p) (c := .bulk (some node) (some content) bytes.length)
    (by simp [Lay.blocks])
  have hc := ho.load_of_mem (a := content) (c := .chars (bytes ++ [0])) (by simp [Lay.blocks])
  have hs : bulkBytes (some content) bytes.length w = .ok (bytes, w) := by
    rw [bulkBytes, M.bind_ok (load_ok hc)]
    simp
  rw [viewLoop, M.bind_ok (nodeOf_owns ho List.mem_cons_self (hasNode_bulk ..)),
    M.bind_ok (baseOf_owns ho)]
  refine (M.bind_ok (v := w) (a := Node.bulk bytes) ?_).trans (M.bind_ok hns)
  exact (M.bind_ok (load_ok hp)).trans (M.bind_ok hs)

theorem viewLoop_array {fuel : Nat} {content : Ptr} {els ns : List Node}
    (hels : viewLoop fuel content w = .ok (els, w)) (hns : viewLoop fuel next w = .ok (ns, w))
    (ho : Owns w.heap ((node, .base ⟨.array, next, prev⟩) ::
      (p, .array (some node) content size) :: F)) :
    viewLoop (fuel + 1) (some p) w = .ok (.array size els :: ns, w) := by
  have hp := ho.load_of_mem (a := p) (c := .array (some node) content size) (by simp)
  rw [viewLoop, M.bind_ok (nodeOf_owns ho List.mem_cons_self (hasNode_array ..)),
    M.bind_ok (baseOf_owns ho)]
  refine (M.bind_ok (v := w) (a := Node.array size els) ?_).trans (M.bind_ok hns)
  exact (M.bind_ok (load_ok hp)).trans (M.bind_ok hels)

/-- What the commands see of a chain without a `void`. -/
theorem viewLoop_list {fuel : Nat} {prev : Ptr} {ts : List (Lay false)}
    (hf : Lay.countList ts ≤ fuel) (hc : Shape.spoiledList (Lay.shapes ts) = false)
    (ho : Owns w.heap (Lay.blocksList x none prev ts ++ F)) :
    viewLoop fuel (Lay.head x none ts) w = .ok (Shape.toNodes (Lay.shapes ts), w) := by
  induction fuel generalizing ts prev F with
  | zero =>
    cases ts with
    | nil => rfl
    | cons t ts =>
      have := t.count_pos
      simp only [Lay.countList] at hf
      omega
  | succ fuel ih =>
    cases ts with
    | nil => rfl
    | cons t ts =>
      simp only [Lay.shapes, Shape.spoiledList, Bool.or_eq_false_iff] at hc
      rw [Lay.blocksList, List.append_assoc] at ho
      have hrest := ho.perm List.perm_append_comm
      rw [List.append_assoc] at hrest
      cases t with
      | bulk p node content bytes =>
        simp only [Lay.countList, Lay.count] at hf
        exact viewLoop_bulk (ih (by omega) hc.2 hrest) ho
      | array p node size els =>
        simp only [Lay.countList, Lay.count] at hf
        exact viewLoop_array (ih (by omega) hc.1 (owns_array_els ho))
          (ih (by omega) hc.2 hrest) ho
      | void p node content type => cases hc.1
      | stray h => cases h

end Look

/-! ## A finished tree -/

section Finished

variable {w : World} {x : Stray} {F : List (Nat × Cell)} {t : Lay false}

/-- `print_array` on a tree without a `void`. -/
theorem printArray_lay (ho : Owns w.heap (t.blocks x none none ++ F))
    (hc : t.shape.spoiled = false) : printArray (some (t.ptr x)) w = .ok ((), w) := by
  obtain ⟨hf, hchain⟩ := owns_chain ho
  exact printLoop_list hf (by simp [Lay.shapes, Shape.spoiledList, hc]) hchain

theorem view_lay (ho : Owns w.heap (t.blocks x none none ++ F)) (hc : t.shape.spoiled = false) :
    view (some (t.ptr x)) w = .ok ([t.shape.toNode], w) := by
  obtain ⟨hf, hchain⟩ := owns_chain ho
  exact viewLoop_list hf (by simp [Lay.shapes, Shape.spoiledList, hc]) hchain

end Finished

end RedisImpl
