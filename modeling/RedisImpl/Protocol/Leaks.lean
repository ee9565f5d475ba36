import RedisImpl.Lib.Linear
import RedisImpl.Protocol.Refine
import RedisImpl.Protocol.SizeValue

/-!
# What the lexer and `delete_array` leak

`delete_array` does not free an `ArrayNode`. Nothing else that the lexer allocates is left behind:

* `deleteArray_leaks`: deleting a tree frees all of its blocks but its `ArrayNode`s, `Lay.nodes`.
* `lexer_exact`: the lexer allocates the blocks of the tree that it returns and no others; where it
  gives up, only `ArrayNode`s are left of what it allocated.

Where the proofs about the lexer have `Owns`, here is `Fills`. What an operation does to blocks that
it owns is known from there, and how many blocks it adds (`Moves`) is what is missing.
-/

namespace RedisImpl

open Heap

/-! ## How many blocks an operation allocates -/

/-- `m` changes the number of blocks by `d` of its result. -/
def Moves {α : Type} (m : M α) (d : α → Int) : Prop :=
  ∀ w v a, m w = .ok (a, v) → (v.heap.live : Int) = w.heap.live + d a

namespace Moves

variable {α β : Type} {m : M α} {f : α → M β} {d : α → Int} {e : β → Int}

theorem ret (a : α) (ha : d a = 0) : Moves (pure a) d := by
  intro w v b h
  cases h
  omega

theorem error (fault : Fault) (d : α → Int) : Moves (throw fault : M α) d := by
  intro w v b h
  cases h

theorem bind (hm : Moves m d) (hf : ∀ a, Moves (f a) fun b => e b - d a) : Moves (m >>= f) e := by
  intro w v b h
  obtain ⟨a, u, ha, hb⟩ := M.of_bind_ok h
  have h1 := hm w u a ha
  have h2 : (v.heap.live : Int) = u.heap.live + (e b - d a) := hf a u v b hb
  omega

theorem ite {p : Prop} [Decidable p] {m' : M α} (h : p → Moves m d) (h' : ¬ p → Moves m' d) :
    Moves (if p then m else m') d := by
  by_cases hp : p
  · rw [if_pos hp]
    exact h hp
  · rw [if_neg hp]
    exact h' hp

/-- A computation that leaves the heap alone, first. -/
theorem skip {g : α → M β} (hm : Moves m fun _ => 0) (hg : ∀ a, Moves (g a) e) :
    Moves (m >>= g) e :=
  hm.bind fun a => by simpa only [Int.sub_zero] using hg a

theorem of_eq {d' : α → Int} (hm : Moves m d) (h : ∀ a, d a = d' a) : Moves m d' := by
  intro w v a hr
  rw [hm w v a hr, h a]

end Moves

section Operations

theorem load_moves (p : Ptr) : Moves (load p) fun _ => 0 := by
  intro w v c h
  unfold load at h
  split at h
  · cases h
    exact (Int.add_zero _).symm
  · cases h

/-- The result is not NULL. -/
theorem alloc_moves (c : Cell) {d : Ptr → Int} (hd : ∀ a, d (some a) = 1) : Moves (alloc c) d := by
  intro w v p h
  cases h
  rw [hd, live_alloc]
  omega

theorem Moves.alloc {α : Type} {f : Ptr → M α} {e : α → Int} (c : Cell)
    (hf : ∀ a, Moves (f (some a)) fun b => e b - 1) : Moves (RedisImpl.alloc c >>= f) e := by
  intro w v b h
  obtain ⟨p, u, hp, hb⟩ := M.of_bind_ok h
  cases hp
  have hrest : (v.heap.live : Int) = (w.heap.alloc c).live + (e b - 1) := hf w.heap.size _ v b hb
  rw [live_alloc] at hrest
  omega

theorem store_moves (p : Ptr) (c : Cell) : Moves (store p c) fun _ => 0 := by
  intro w v u h
  cases p with
  | none => cases h
  | some a =>
    cases hl : w.heap.load a with
    | none => simp [store, hl] at h
    | some c' =>
      rw [store_ok hl] at h
      cases h
      simp only [live_store hl, Int.add_zero]

/-- Freeing a pointer that is not NULL. -/
theorem free_moves (a : Nat) : Moves (free (some a)) fun _ => -1 := by
  intro w v u h
  cases hl : w.heap.load a with
  | none => simp [free, hl] at h
  | some c =>
    rw [free_ok hl] at h
    cases h
    have hlive := live_free hl
    simp only []
    omega

theorem nodeOf_moves (p : Ptr) : Moves (nodeOf p) fun _ => 0 := by
  refine (load_moves p).skip fun c => ?_
  cases c with
  | array node _ _ => exact .ret node rfl
  | bulk node _ _ => exact .ret node rfl
  | base _ => exact .error _ _
  | chars _ => exact .error _ _

theorem baseOf_moves (p : Ptr) : Moves (baseOf p) fun _ => 0 := by
  refine (load_moves p).skip fun c => ?_
  cases c with
  | base b => exact .ret b rfl
  | array _ _ _ => exact .error _ _
  | bulk _ _ _ => exact .error _ _
  | chars _ => exact .error _ _

theorem setPrev_moves (p q : Ptr) : Moves (setPrev p q) fun _ => 0 :=
  (nodeOf_moves p).skip fun _ => (baseOf_moves _).skip fun _ => store_moves _ _

theorem setNext_moves (p q : Ptr) : Moves (setNext p q) fun _ => 0 :=
  (nodeOf_moves p).skip fun _ => (baseOf_moves _).skip fun _ => store_moves _ _

theorem writeChar_moves (content : Ptr) (i : Int) (c : UInt8) :
    Moves (writeChar content i c) fun _ => 0 := by
  refine (load_moves content).skip fun cell => ?_
  cases cell with
  | chars bytes => exact .ite (fun _ => store_moves _ _) fun _ => .error _ _
  | base _ => exact .error _ _
  | array _ _ _ => exact .error _ _
  | bulk _ _ _ => exact .error _ _

theorem readExactBytes_moves (len : Nat) : Moves (readExactBytes len) fun _ => 0 := by
  intro w v r h
  cases h
  exact (Int.add_zero _).symm

theorem isValidTerminator_moves : Moves isValidTerminator fun _ => 0 := by
  refine (readExactBytes_moves 1).skip fun r => .ite (fun _ => ?_) fun _ => ?_
  · exact .ret false rfl
  · exact (readExactBytes_moves 1).skip fun r => .ret _ rfl

theorem getElSize_moves : Moves getElSize fun _ => 0 := by
  intro w v n h
  rw [(getElSize_cases h).1, Int.add_zero]

theorem newArray_moves (content next prev : Ptr) (size : Int) :
    Moves (newArray content next prev size) fun _ => 2 :=
  .alloc _ fun _ => alloc_moves _ fun _ => rfl

theorem newBulkStr_moves (content next prev : Ptr) (size : Int) {d : Ptr → Int}
    (hd : ∀ a, d (some a) = 2) : Moves (newBulkStr content next prev size) d := by
  have hd' : ∀ a, d (some a) - 1 = 1 := fun a => by
    rw [hd]
    rfl
  refine .alloc _ fun node => .ite (fun _ => ?_) fun _ => ?_
  · exact (writeChar_moves _ _ _).skip fun _ => alloc_moves _ hd'
  · exact alloc_moves _ hd'

/-- A bulk string is three blocks. -/
theorem lexBulkStr_moves : Moves lexBulkStr fun p => if p.isSome then 3 else 0 := by
  refine getElSize_moves.skip fun n => .ite (fun _ => .ret none rfl) fun _ => ?_
  refine .ite (fun _ => ?_) fun _ => .ite (fun _ => ?_) fun _ => .ite (fun _ => ?_) fun _ => ?_
  · refine isValidTerminator_moves.skip fun b => .ite (fun _ => .ret none rfl) fun _ => ?_
    exact .alloc _ fun _ => newBulkStr_moves _ _ _ _ fun _ => rfl
  · -- the nil bulk string is a fault
    intro w v p h
    cases h
  · exact .ret none rfl
  · refine .ite (fun _ => .ret none rfl) fun _ => .alloc _ fun buf => ?_
    refine (readExactBytes_moves _).skip fun r => ?_
    cases r with
    | none => exact (free_moves buf).bind fun _ => .ret none rfl
    | some bytes =>
      refine (store_moves _ _).skip fun _ => isValidTerminator_moves.skip fun b => .ite (fun _ => ?_)
        fun _ => ?_
      · exact (free_moves buf).bind fun _ => .ret none rfl
      · exact newBulkStr_moves _ _ _ _ fun _ => rfl

/-- The array is made for the first element. -/
theorem linkElement_moves (size : Int) (array previous current : Ptr) :
    Moves (linkElement size array previous current) fun _ => if array.isNone then 2 else 0 := by
  refine Moves.bind (d := fun _ => if array.isNone then 2 else 0) (.ite (fun ha => ?_) fun ha => ?_)
    fun made => ?_
  · rw [if_pos ha]
    exact (newArray_moves _ _ _ _).bind fun made => (setPrev_moves _ _).skip fun _ => .ret made rfl
  · rw [if_neg ha]
    exact (setPrev_moves _ _).skip fun _ => .ret array rfl
  · simp only [Int.sub_self]
    exact .ite (fun _ => (setNext_moves _ _).skip fun _ => .ret made rfl) fun _ => .ret made rfl

end Operations

/-! ## Deleting -/

namespace Lay

variable {s : Bool} (x : Stray)

mutual

/-- The `ArrayNode`s of a tree. -/
def nodes : Lay s → List (Nat × Cell)
  | bulk .. => []
  | array p node size els => (p, .array (some node) (head x none els) size) :: nodesList els
  | void .. => []
  | stray _ => []

def nodesList : List (Lay s) → List (Nat × Cell)
  | [] => []
  | t :: ts => t.nodes ++ nodesList ts

end

/-- The number of blocks does not depend on the links. -/
theorem length_blocks (t : Lay s) (next prev next' prev' : Ptr) :
    (t.blocks x next prev).length = (t.blocks x next' prev').length := by
  cases t <;> simp [blocks]

theorem length_blocksList (ts : List (Lay s)) (next prev next' prev' : Ptr) :
    (blocksList x next prev ts).length = (blocksList x next' prev' ts).length := by
  induction ts generalizing prev prev' with
  | nil => rfl
  | cons t ts ih =>
    rw [blocksList, blocksList, List.length_append, List.length_append, ih _ (some (t.ptr x)),
      length_blocks x t _ _ (head x next' ts) prev']

/-- An array with one more element. -/
theorem length_blocks_concat (p n : Nat) (size : Int) (ts : List (Lay s)) (t : Lay s) :
    ((array p n size (ts ++ [t])).blocks x none none).length =
      ((array p n size ts).blocks x none none).length + (t.blocks x none none).length := by
  rw [blocks, blocks, blocksList_concat]
  simp only [List.length_cons, List.length_append]
  rw [length_blocksList x ts _ _ none (some p), length_blocks x t none _ none none]
  omega

end Lay

section Delete

variable {w : World} {x : Stray} {F : List (Nat × Cell)}

theorem free_fills {a : Nat} {c : Cell} (hf : Fills w.heap ((a, c) :: F)) :
    ∃ h, free (some a) w = .ok ((), { w with heap := h }) ∧ Fills h F :=
  ⟨_, free_ok (hf.owns.load_of_mem List.mem_cons_self), hf.free⟩

/-- A bulk string at the front of the chain is freed. -/
theorem deleteVisits_bulk_fills (fuel : Nat) {next prev : Ptr} {p node content : Nat} {bytes : Bytes}
    (hf : Fills w.heap ((Lay.bulk p node content bytes : Lay false).blocks x next prev ++ F)) :
    ∃ h, deleteVisits (fuel + 1) (some p) w =
        (do let later ← deleteVisits fuel next; return p :: later) { w with heap := h } ∧
      Fills h F := by
  have ho := hf.owns
  have hp := ho.load_of_mem (a := p) (c := .bulk (some node) (some content) bytes.length)
    (by simp [Lay.blocks])
  obtain ⟨h1, hr1, hf1⟩ := free_fills hf
  obtain ⟨h2, hr2, hf2⟩ := free_fills (w := { w with heap := h1 })
    (hf1.perm (by exact List.Perm.swap (content, .chars (bytes ++ [0])) _ F))
  obtain ⟨h3, hr3, hf3⟩ := free_fills (w := { w with heap := h2 }) hf2
  refine ⟨h3, ?_, hf3⟩
  rw [deleteVisits, M.bind_ok (nodeOf_owns ho List.mem_cons_self (hasNode_bulk ..)),
    M.bind_ok (baseOf_owns ho)]
  show (load (some p) >>= _) w = _
  rw [M.bind_ok (load_ok hp)]
  exact (M.bind_ok hr1).trans ((M.bind_ok hr2).trans (M.bind_ok hr3))

/-- `delete_array(current, 0)` on a chain without a `void` leaves its `ArrayNode`s. -/
theorem deleteVisits_leaks {fuel : Nat} {prev : Ptr} {ts : List (Lay false)}
    (hcount : Lay.countList ts ≤ fuel) (hc : Shape.spoiledList (Lay.shapes ts) = false)
    (hf : Fills w.heap (Lay.blocksList x none prev ts ++ F)) :
    ∃ h, deleteVisits fuel (Lay.head x none ts) w =
        .ok (Lay.ptrsList x ts, { w with heap := h }) ∧ Fills h (Lay.nodesList x ts ++ F) := by
  induction fuel generalizing ts prev w F with
  | zero =>
    cases ts with
    | nil => exact ⟨w.heap, rfl, hf⟩
    | cons t ts =>
      have := t.count_pos
      simp only [Lay.countList] at hcount
      omega
  | succ fuel ih =>
    cases ts with
    | nil => exact ⟨w.heap, rfl, hf⟩
    | cons t ts =>
      simp only [Lay.shapes, Shape.spoiledList, Bool.or_eq_false_iff] at hc
      rw [Lay.blocksList, List.append_assoc] at hf
      cases t with
      | bulk p node content bytes =>
        simp only [Lay.countList, Lay.count] at hcount
        obtain ⟨h, hr, hf'⟩ := deleteVisits_bulk_fills fuel hf
        obtain ⟨h', hr', hf''⟩ := ih (w := { w with heap := h }) (by omega) hc.2 hf'
        exact ⟨h', hr.trans (M.bind_ok hr'), hf''⟩
      | array p node size els =>
        simp only [Lay.countList, Lay.count] at hcount
        have hels : Fills w.heap (Lay.blocksList x none (some p) els ++
            ((node, .base ⟨.array, Lay.head x none ts, prev⟩) ::
              (p, .array (some node) (Lay.head x none els) size) ::
                (Lay.blocksList x none (some p) ts ++ F))) := by
          apply hf.perm
          rw [Lay.blocks, List.cons_append, List.cons_append]
          exact (List.perm_middle.trans (List.perm_middle.cons _)).symm
        obtain ⟨h1, hr1, hf1⟩ := ih (by omega) hc.1 hels
        obtain ⟨h2, hr2, hf2⟩ := free_fills (w := { w with heap := h1 })
          (hf1.perm (by exact List.perm_middle))
        -- the `ArrayNode`s are left alone from here on
        have hts : Fills h2 (Lay.blocksList x none (some p) ts ++
            ((p, .array (some node) (Lay.head x none els) size) :: (Lay.nodesList x els ++ F))) := by
          refine hf2.perm (List.perm_iff_count.mpr fun a => ?_)
          simp only [List.count_append, List.count_cons]
          omega
        obtain ⟨h3, hr3, hf3⟩ := ih (w := { w with heap := h2 }) (by omega) hc.2 hts
        refine ⟨h3, ?_, hf3.perm (List.perm_iff_count.mpr fun a => ?_)⟩
        · exact (deleteVisits_array fuel hf.owns).trans
            ((M.bind_ok hr1).trans ((M.bind_ok hr2).trans (M.bind_ok hr3)))
        · simp only [Lay.nodesList, Lay.nodes, List.cons_append, List.count_append, List.count_cons]
          omega
      | void p node content type => cases hc.1
      | stray h => cases h

/-- `delete_array(q, 1)`, where the walk back ends at the root of a tree without a `void`. -/
theorem deleteArrayVisits_leaks {t : Lay false} {q : Nat} {back : List Nat}
    (hf : Fills w.heap (t.blocks x none none ++ F))
    (hr : rewindVisits (w.heap.size + 1) (some q) w = .ok ((some (t.ptr x), back), w))
    (hc : t.shape.spoiled = false) :
    ∃ h, deleteArray (some q) w = .ok ((), { w with heap := h }) ∧ Fills h (t.nodes x ++ F) := by
  obtain ⟨hcount, -⟩ := owns_chain hf.owns
  have hchain : Fills w.heap (Lay.blocksList x none none [t] ++ F) := by
    rw [Lay.blocksList, Lay.blocksList, List.append_nil]
    exact hf
  obtain ⟨h, hd, hf'⟩ := deleteVisits_leaks hcount (by simp [Lay.shapes, Shape.spoiledList, hc]) hchain
  rw [Lay.nodesList, Lay.nodesList, List.append_nil] at hf'
  exact ⟨h, deleteArray_of_visits ((M.bind_ok hr).trans (M.bind_ok hd)), hf'⟩

/-- `delete_array(t, 1)` for a finished tree. -/
theorem deleteArray_leaks {t : Lay false} (hf : Fills w.heap (t.blocks x none none ++ F))
    (hc : t.shape.spoiled = false) :
    ∃ h, deleteArray (some (t.ptr x)) w = .ok ((), { w with heap := h }) ∧
      Fills h (t.nodes x ++ F) :=
  deleteArrayVisits_leaks hf (rewindVisits_lay w.heap.size t hf.owns) hc

end Delete

/-! ## Reading -/

/-- The block is an `ArrayNode`. -/
def Cell.IsArrayNode (c : Cell) : Prop := ∃ node content size, c = .array node content size

namespace Lay

variable {s : Bool} (x : Stray)

mutual

theorem isArrayNode_of_mem_nodes (t : Lay s) {b : Nat × Cell} (hb : b ∈ t.nodes x) :
    b.2.IsArrayNode := by
  cases t with
  | array p node size els =>
    rcases List.mem_cons.mp hb with rfl | hb
    · exact ⟨_, _, _, rfl⟩
    · exact isArrayNode_of_mem_nodesList els hb
  | bulk p node content bytes => cases hb
  | void p node content type => cases hb
  | stray h => cases hb

theorem isArrayNode_of_mem_nodesList (ts : List (Lay s)) {b : Nat × Cell} (hb : b ∈ nodesList x ts) :
    b.2.IsArrayNode := by
  cases ts with
  | nil => cases hb
  | cons t ts =>
    rcases List.mem_append.mp hb with hb | hb
    · exact isArrayNode_of_mem_nodes t hb
    · exact isArrayNode_of_mem_nodesList ts hb

end

end Lay

/-- The lexer does what the reader says. Of the blocks that it allocates, the tree is there that it
returns, or some `ArrayNode`s if it gives up. -/
inductive Exact (x : Stray) (F : List (Nat × Cell)) :
    Outcome (Shape false) → Except Fault (Ptr × World) → Prop
  | done (t : Lay false) (h : Heap Cell) (rest : Bytes) :
    Fills h (t.blocks x none none ++ F) →
    Exact x F (.done t.shape rest) (.ok (some (t.ptr x), ⟨h, rest⟩))
  | reject (v : World) (L : List (Nat × Cell)) :
    (∀ b ∈ L, b.2.IsArrayNode) → Fills v.heap (L ++ F) → Exact x F .reject (.ok (none, v))
  | fault (r : Except Fault (Ptr × World)) : Exact x F .fault r

/-- The blocks of an array with the elements `ts` read: none before the first one. -/
inductive Half (x : Stray) (size : Int) :
    List (Lay false) → (array previous : Ptr) → List (Nat × Cell) → Prop
  | start : Half x size [] none none []
  | more (ts : List (Lay false)) (l : Lay false) (p n : Nat) :
    Half x size (ts ++ [l]) (some p) (some (l.ptr x))
      ((Lay.array p n size (ts ++ [l])).blocks x none none)

section Read

variable {w : World} {x : Stray} {F bs : List (Nat × Cell)} {size : Int} {unset : World → Ptr}
  {ts : List (Lay false)} {array previous : Ptr} {lexer : M Ptr}
  {rd : Bytes → Outcome (Shape false)}

/-- Linking an element adds the blocks of the array, if it is the first one. -/
theorem Half.link {t : Lay false} (hh : Half x size ts array previous bs)
    (hf : Fills w.heap (t.blocks x none none ++ (bs ++ F))) :
    ∃ array' h bs', linkElement size array previous (some (t.ptr x)) w =
        .ok (array', { w with heap := h }) ∧
      Half x size (ts ++ [t]) array' (some (t.ptr x)) bs' ∧ Fills h (bs' ++ F) := by
  have hlive := hf.live_eq
  simp only [List.length_append] at hlive
  cases hh with
  | start =>
    obtain ⟨p, n, h, sn, sp, hr, ho⟩ := @linkElement_first w F false x size t none none hf.owns
    have hmoves : (h.live : Int) = w.heap.live + 2 := linkElement_moves _ _ _ _ _ _ _ hr
    have hlen := Lay.length_blocks_concat x p n size [] t
    refine ⟨some p, h, _, hr, .more [] t p n, .of_owns ho ?_⟩
    simp only [List.nil_append, Lay.blocks, Lay.blocksList, List.length_cons, List.length_nil,
      List.length_append] at hlive hlen ⊢
    omega
  | more ts l p n =>
    obtain ⟨h, sn, sp, hr, ho⟩ := @linkElement_next w F false x size t l ts p n none none hf.owns
    have hmoves : (h.live : Int) = w.heap.live + 0 := linkElement_moves _ _ _ _ _ _ _ hr
    have hlen := Lay.length_blocks_concat x p n size (ts ++ [l]) t
    refine ⟨some p, h, _, hr, .more (ts ++ [l]) t p n, .of_owns ho ?_⟩
    rw [List.length_append, hlen]
    omega

/-- Giving up leaves the `ArrayNode`s, next to those that were left before. -/
theorem Half.giveUp {L : List (Nat × Cell)} (hL : ∀ b ∈ L, b.2.IsArrayNode)
    (hh : Half x size ts array previous bs) (hf : Fills w.heap (bs ++ (L ++ F)))
    {r : Except Fault (Ptr × World)} (hr : r = (do deleteArray previous; return none : M Ptr) w) :
    Exact x F ((giveUp (Lay.shapes ts) : Outcome (List (Shape false))).map (Shape.array size)) r := by
  subst hr
  unfold RedisImpl.giveUp
  cases hc : Shape.spoiledList (Lay.shapes ts) with
  | true => exact .fault _
  | false =>
    cases hh with
    | start => exact .reject w L hL hf
    | more ts l p n =>
      have hback := rewindVisits_array hf.owns
      rw [Lay.last_concat] at hback
      obtain ⟨h, hd, hf'⟩ := deleteArrayVisits_leaks hf hback (by rw [Lay.shape, Shape.spoiled, hc])
      rw [M.bind_ok hd]
      refine .reject ⟨h, w.inp⟩ ((Lay.array p n size (ts ++ [l])).nodes x ++ L) (fun b hb => ?_) ?_
      · exact (List.mem_append.mp hb).elim (Lay.isArrayNode_of_mem_nodes x _) (hL b)
      · rw [List.append_assoc]
        exact hf'

/-- The switch over the type byte, if `lexer` on an array does what `rd` says. -/
theorem lexCurrent_exact (unset : World → Ptr)
    (hrec : ∀ w F, Fills w.heap F → Exact x F (rd w.inp) (lexer w))
    {heap : Heap Cell} (hf : Fills heap F) (c : UInt8) (inp : Bytes) :
    Exact x F (readItem rd c inp) (lexCurrent unset lexer c ⟨heap, inp⟩) := by
  unfold readItem lexCurrent
  by_cases hdollar : c = 36
  · rw [if_pos hdollar, if_pos (show c = dollarByte from hdollar)]
    have hlex := lexBulkStr_refines (w := ⟨heap, inp⟩) false x hf.owns
    have hlive := hf.live_eq
    cases hb : readBulk inp with
    | done b rest =>
      simp only [hb] at hlex
      obtain ⟨p, n, q, h, hr, ho⟩ := hlex
      -- that there is nothing else in memory follows from the count
      have hmoves : (h.live : Int) = heap.live + 3 := lexBulkStr_moves _ _ _ hr
      rw [hr]
      refine .done (.bulk p n q b) h rest (.of_owns ho ?_)
      rw [List.length_append, Lay.blocks]
      simp only [List.length_cons, List.length_nil]
      omega
    | reject =>
      simp only [hb] at hlex
      obtain ⟨v, hr, ho⟩ := hlex
      have hmoves : (v.heap.live : Int) = heap.live + 0 := lexBulkStr_moves _ _ _ hr
      rw [hr]
      refine .reject v [] (fun b hb => absurd hb List.not_mem_nil) (.of_owns ho ?_)
      rw [List.nil_append]
      omega
    | fault => exact .fault _
  rw [if_neg hdollar, if_neg (show ¬ c = dollarByte from hdollar)]
  by_cases hstar : c = 42
  · rw [if_pos hstar, if_pos (show c = asteriskByte from hstar)]
    exact hrec ⟨heap, inp⟩ F hf
  · rw [if_neg hstar, dif_neg Bool.false_ne_true]
    exact .fault _

/-- The loop, if `lexer` on the elements that are arrays does what `rd` says. -/
theorem lexElements_exact (hrec : ∀ w F, Fills w.heap F → Exact x F (rd w.inp) (lexer w)) {k : Nat}
    (hk : 0 < k + ts.length) (hh : Half x size ts array previous bs)
    (hf : Fills w.heap (bs ++ F)) :
    Exact x F ((readElements rd k (Lay.shapes ts) w.inp).map (Shape.array size))
      (lexElements unset lexer size k array previous w) := by
  induction k generalizing w ts array previous bs F with
  | zero =>
    cases hh with
    | start => exact absurd hk (Nat.lt_irrefl 0)
    | more ts l p n => exact .done (.array p n size (ts ++ [l])) w.heap w.inp hf
  | succ k ih =>
    cases hi : w.inp with
    | nil =>
      exact hh.giveUp (L := []) (fun b hb => absurd hb List.not_mem_nil) hf
        (M.bind_ok (readExactBytes_one_nil hi))
    | cons c inp =>
      have hrun : lexElements unset lexer size (k + 1) array previous w =
          (do
            let current ← lexCurrent unset lexer c
            if current.isNone then
              deleteArray previous
              return none
            else
              let array ← linkElement size array previous current
              lexElements unset lexer size k array current : M Ptr) ⟨w.heap, inp⟩ :=
        M.bind_ok (readExactBytes_one_cons hi)
      have hcur := lexCurrent_exact unset hrec hf c inp
      rw [readElements_cons, hrun]
      generalize readItem rd c inp = o at hcur ⊢
      generalize hr : lexCurrent unset lexer c ⟨w.heap, inp⟩ = r at hcur
      cases hcur with
      | done t h rest hf' =>
        obtain ⟨array', h', bs', hl, hh', hf''⟩ := hh.link (w := ⟨h, rest⟩) hf'
        have hpos : 0 < k + (ts ++ [t]).length := by
          rw [List.length_append, List.length_singleton]
          omega
        have hnext := ih (w := ⟨h', rest⟩) hpos hh' hf''
        rw [Lay.shapes_append] at hnext
        have hstep : (do
            let array ← linkElement size array previous (some (t.ptr x))
            lexElements unset lexer size k array (some (t.ptr x)) : M Ptr) ⟨h, rest⟩ =
          lexElements unset lexer size k array' (some (t.ptr x)) ⟨h', rest⟩ := M.bind_ok hl
        rw [M.bind_ok hr]
        simp only [Option.isNone_some, Bool.false_eq_true, if_false]
        rw [hstep]
        exact hnext
      | reject v L hL hf' =>
        -- `delete_array(previous, 0)` frees the elements before, but for the `ArrayNode`s
        rw [M.bind_ok hr]
        refine hh.giveUp hL (hf'.perm (List.perm_iff_count.mpr fun a => ?_)) rfl
        simp only [List.count_append]
        omega
      | fault r => exact .fault _

theorem lexerLoop_exact {fuel : Nat} (hf : Fills w.heap F) :
    Exact x F (readArray false fuel w.inp) (lexerLoop unset fuel w) := by
  induction fuel generalizing w F with
  | zero => exact .fault _
  | succ fuel ih =>
    have hsize := getElSize_eq w
    cases hr : readSize w.inp with
    | bad =>
      rw [hr] at hsize
      obtain ⟨rest, hg⟩ := hsize
      have hrun : lexerLoop unset (fuel + 1) w = .ok (none, { w with inp := rest }) := M.bind_ok hg
      rw [hrun, readArray, hr]
      exact .reject { w with inp := rest } [] (fun b hb => absurd hb List.not_mem_nil) hf
    | long =>
      rw [readArray, hr]
      exact .fault _
    | size n rest =>
      rw [hr] at hsize
      have hg : getElSize w = .ok (n, { w with inp := rest }) := hsize
      by_cases hn : n ≠ errInvChar ∧ n ≠ -1 ∧ n ≠ 0
      · obtain ⟨h2, h1, h0⟩ := hn
        have hrun : lexerLoop unset (fuel + 1) w = lexElements unset (lexerLoop unset fuel) n
            (BitVec.ofInt 32 n).toNat none none { w with inp := rest } := by
          refine (M.bind_ok hg).trans ?_
          rw [if_neg h2, if_neg h1, if_neg h0]
        rw [readArray_elements hr ⟨h2, h1, h0⟩, hrun]
        exact lexElements_exact (w := { w with inp := rest }) (fun w F hf => ih hf)
          (Nat.lt_of_lt_of_le (readSize_count_pos hr h0) (Nat.le_add_right _ _)) .start hf
      have hn' : n = errInvChar ∨ n = -1 ∨ n = 0 := by
        by_contra hno
        rw [not_or, not_or] at hno
        exact hn hno
      -- three blocks for an empty or nil array
      have hvoid (type : RedisDtype) : Exact x F (.done (.void type) rest) ((do
          let node ← newBaseNode type none none
          newArray node none none 1 : M Ptr) { w with inp := rest }) := by
        obtain ⟨t, h, ht, hrun, ho⟩ := lexerVoid false x type (w := { w with inp := rest }) hf.owns
        have hmoves : Moves (do
            let node ← newBaseNode type none none
            newArray node none none 1 : M Ptr) fun _ => 3 :=
          .alloc _ fun _ => newArray_moves _ _ _ _
        have hlive : (h.live : Int) = w.heap.live + 3 := hmoves _ _ _ hrun
        rw [hrun, ← ht]
        refine .done t h rest (.of_owns ho ?_)
        have hblocks : (t.blocks x none none).length = 3 := by
          cases t with
          | void p node content type => rfl
          | bulk p node content bytes => cases ht
          | array p node size els => cases ht
          | stray h => cases h
        rw [List.length_append, hblocks, ← hf.live_eq]
        omega
      rw [readArray, hr, lexerLoop, M.bind_ok hg]
      rcases hn' with rfl | rfl | rfl
      · exact .reject { w with inp := rest } [] (fun b hb => absurd hb List.not_mem_nil) hf
      · exact hvoid .nillArray
      · exact hvoid .emptyArray

end Read

/-- `lexer` allocates what the reader builds. -/
theorem lexer_exact (x : Stray) (unset : World → Ptr) {w : World} {F : List (Nat × Cell)}
    (hf : Fills w.heap F) : Exact x F (readRequest false w.inp) (lexer unset w) :=
  lexerLoop_exact hf

end RedisImpl
