import RedisImpl.Protocol.Recv

/-!
# Computations on the heap alone

`Quiet x`: the computation `x` neither reads nor changes the bytes that are still to come. Those of
`Protocol/Memory.lean` are, and what is made of them: linking, deleting, printing and viewing.
-/

namespace RedisImpl

/-- `x` does the same whatever the input is, and leaves it. -/
def Quiet {α : Type} (x : M α) : Prop :=
  ∀ h inp, ∃ r : Except Fault (α × Heap Cell), x ⟨h, inp⟩ = (r.map fun p => (p.1, ⟨p.2, inp⟩)) ∧
    ∀ inp', x ⟨h, inp'⟩ = (r.map fun p => (p.1, ⟨p.2, inp'⟩))

namespace Quiet

variable {α β : Type} {x : M α} {f : α → M β}

/-- A computation whose result and heap are given by the heap. -/
theorem of_heap (r : Heap Cell → Except Fault (α × Heap Cell))
    (h : ∀ w, x w = ((r w.heap).map fun p => (p.1, ⟨p.2, w.inp⟩))) : Quiet x :=
  fun heap _ => ⟨r heap, h _, fun _ => h _⟩

protected theorem pure (a : α) : Quiet (pure a : M α) := of_heap (fun h => .ok (a, h)) fun _ => rfl

protected theorem throw (e : Fault) : Quiet (throw e : M α) := of_heap (fun _ => .error e) fun _ => rfl

protected theorem bind (hx : Quiet x) (hf : ∀ a, Quiet (f a)) : Quiet (x >>= f) := by
  intro h inp
  obtain ⟨r, hr, hr'⟩ := hx h inp
  cases r with
  | error e => exact ⟨.error e, M.bind_error hr, fun inp' => M.bind_error (hr' inp')⟩
  | ok p =>
    obtain ⟨a, h₁⟩ := p
    obtain ⟨q, hq, hq'⟩ := hf a h₁ inp
    exact ⟨q, (M.bind_ok hr).trans hq, fun inp' => (M.bind_ok (hr' inp')).trans (hq' inp')⟩

protected theorem ite {p : Prop} [Decidable p] {y : M α} (hx : Quiet x) (hy : Quiet y) :
    Quiet (if p then x else y) := by
  split
  · exact hx
  · exact hy

end Quiet

/-! ## Blocks -/

section Blocks

theorem quiet_load (p : Ptr) : Quiet (load p) := by
  apply Quiet.of_heap fun h => (p.bind h.load).elim (.error .dangling) fun c => .ok (c, h)
  intro w
  simp only [load]
  cases p.bind w.heap.load with
  | none => rfl
  | some c => rfl

theorem quiet_alloc (c : Cell) : Quiet (alloc c) :=
  Quiet.of_heap (fun h => .ok (some h.size, h.alloc c)) fun _ => rfl

theorem quiet_store (p : Ptr) (c : Cell) : Quiet (store p c) := by
  cases p with
  | none => exact Quiet.throw _
  | some a =>
    apply Quiet.of_heap fun h => if (h.load a).isSome then .ok ((), h.store a c)
      else .error .dangling
    intro w
    simp only [store]
    split <;> rfl

theorem quiet_free (p : Ptr) : Quiet (free p) := by
  cases p with
  | none => exact Quiet.pure ()
  | some a =>
    apply Quiet.of_heap fun h => if (h.load a).isSome then .ok ((), h.free a)
      else .error .dangling
    intro w
    simp only [free]
    split <;> rfl

theorem quiet_nodeOf (p : Ptr) : Quiet (nodeOf p) := by
  apply (quiet_load p).bind
  intro c
  cases c with
  | array node content size => exact .pure _
  | bulk node content size => exact .pure _
  | base node => exact .throw _
  | chars bytes => exact .throw _

theorem quiet_baseOf (node : Ptr) : Quiet (baseOf node) := by
  apply (quiet_load node).bind
  intro c
  cases c with
  | base node => exact .pure _
  | array node content size => exact .throw _
  | bulk node content size => exact .throw _
  | chars bytes => exact .throw _

theorem quiet_setPrev (p q : Ptr) : Quiet (setPrev p q) :=
  (quiet_nodeOf p).bind fun node => (quiet_baseOf node).bind fun _ => quiet_store node _

theorem quiet_setNext (p q : Ptr) : Quiet (setNext p q) :=
  (quiet_nodeOf p).bind fun node => (quiet_baseOf node).bind fun _ => quiet_store node _

theorem quiet_writeChar (content : Ptr) (i : Int) (c : UInt8) : Quiet (writeChar content i c) := by
  apply (quiet_load content).bind
  intro cell
  cases cell with
  | chars bytes => exact (quiet_store content _).ite (.throw _)
  | base node => exact .throw _
  | array node content size => exact .throw _
  | bulk node content size => exact .throw _

end Blocks

/-! ## Records and trees -/

section Trees

theorem quiet_newBaseNode (type : RedisDtype) (next prev : Ptr) : Quiet (newBaseNode type next prev) :=
  quiet_alloc _

theorem quiet_newArray (content next prev : Ptr) (size : Int) :
    Quiet (newArray content next prev size) :=
  (quiet_newBaseNode _ _ _).bind fun _ => quiet_alloc _

theorem quiet_newBulkStr (content next prev : Ptr) (size : Int) :
    Quiet (newBulkStr content next prev size) := by
  apply (quiet_newBaseNode _ _ _).bind
  intro node
  have hrecord : Quiet (alloc (.bulk node content size)) := quiet_alloc _
  exact ((quiet_writeChar content size 0).bind fun _ => hrecord).ite hrecord

theorem quiet_linkElement (arrSize : Int) (array previous current : Ptr) :
    Quiet (linkElement arrSize array previous current) := by
  unfold linkElement
  have hnext (array : Ptr) : Quiet (do
      if previous.isSome then setNext previous current
      return array : M Ptr) :=
    ((quiet_setNext _ _).bind fun _ => .pure _).ite (.pure _)
  apply Quiet.bind _ hnext
  apply Quiet.ite
  · exact (quiet_newArray _ _ _ _).bind fun _ => (quiet_setPrev _ _).bind fun _ => .pure _
  · exact (quiet_setPrev _ _).bind fun _ => .pure _

theorem quiet_rewind (fuel : Nat) (current : Ptr) : Quiet (rewind fuel current) := by
  induction fuel generalizing current with
  | zero => exact .throw _
  | succ fuel ih =>
    refine (quiet_nodeOf current).bind fun node => (quiet_baseOf node).bind fun b => ?_
    cases b.prev with
    | none => exact .pure _
    | some prev => exact ih _

theorem quiet_deleteLoop (fuel : Nat) (p : Ptr) : Quiet (deleteLoop fuel p) := by
  induction fuel generalizing p with
  | zero =>
    cases p with
    | none => exact .pure _
    | some a => exact .throw _
  | succ fuel ih =>
    cases p with
    | none => exact .pure _
    | some a =>
      refine (quiet_nodeOf _).bind fun node => (quiet_baseOf node).bind fun b => ?_
      obtain ⟨type, next, prev⟩ := b
      cases type with
      | array =>
        refine (quiet_load _).bind fun c => ?_
        cases c with
        | array node content size =>
          exact (ih content).bind fun _ => (quiet_free node).bind fun _ => ih _
        | base node => exact .throw _
        | bulk node content size => exact .throw _
        | chars bytes => exact .throw _
      | bulkStr =>
        refine (quiet_load _).bind fun c => ?_
        cases c with
        | bulk node content size =>
          exact (quiet_free node).bind fun _ => (quiet_free content).bind fun _ =>
            (quiet_free _).bind fun _ => ih _
        | base node => exact .throw _
        | array node content size => exact .throw _
        | chars bytes => exact .throw _
      | undefDtype => exact (ih _).ite (.pure _)
      | simpleStr => exact (ih _).ite (.pure _)
      | int => exact (ih _).ite (.pure _)
      | nillArray => exact (ih _).ite (.pure _)
      | emptyArray => exact (ih _).ite (.pure _)

/-- The bound of the loops is the size of the heap. -/
theorem Quiet.of_size {α : Type} {x : Nat → M α} (hx : ∀ n, Quiet (x n)) :
    Quiet fun w => x (w.heap.size + 1) w :=
  fun h inp => hx (h.size + 1) h inp

theorem quiet_deleteArray (el : Ptr) : Quiet (deleteArray el) := by
  cases el with
  | none => exact .pure ()
  | some p =>
    exact Quiet.of_size (x := fun n => rewind n (some p) >>= deleteLoop n) fun n =>
      (quiet_rewind n _).bind fun _ => quiet_deleteLoop n _

theorem quiet_printString (content : Ptr) : Quiet (printString content) := by
  unfold printString
  refine Quiet.ite ((quiet_load content).bind fun c => ?_) (.pure _)
  cases c with
  | chars bytes => exact Quiet.ite (.throw _) (.pure _)
  | base node => exact .throw _
  | array node content size => exact .throw _
  | bulk node content size => exact .throw _

theorem quiet_printLoop (fuel : Nat) (p : Ptr) : Quiet (printLoop fuel p) := by
  induction fuel generalizing p with
  | zero =>
    cases p with
    | none => exact .pure _
    | some a => exact .throw _
  | succ fuel ih =>
    cases p with
    | none => exact .pure _
    | some a =>
      refine (quiet_nodeOf _).bind fun node => (quiet_baseOf node).bind fun b => ?_
      obtain ⟨type, next, prev⟩ := b
      have hnext : Quiet (printLoop fuel next) := ih next
      cases type with
      | bulkStr =>
        refine (quiet_load _).bind fun c => ?_
        cases c with
        | bulk node content size => exact (quiet_printString content).bind fun _ => hnext
        | base node => exact (Quiet.throw _).bind fun _ => hnext
        | array node content size => exact (Quiet.throw _).bind fun _ => hnext
        | chars bytes => exact (Quiet.throw _).bind fun _ => hnext
      | array =>
        refine (quiet_load _).bind fun c => ?_
        cases c with
        | array node content size => exact (ih content).bind fun _ => hnext
        | base node => exact (Quiet.throw _).bind fun _ => hnext
        | bulk node content size => exact (Quiet.throw _).bind fun _ => hnext
        | chars bytes => exact (Quiet.throw _).bind fun _ => hnext
      | undefDtype => exact hnext
      | simpleStr => exact hnext
      | int => exact hnext
      | nillArray => exact hnext
      | emptyArray => exact hnext

theorem quiet_printArray (arr : Ptr) : Quiet (printArray arr) :=
  Quiet.of_size fun n => quiet_printLoop n arr

theorem quiet_bulkBytes (content : Ptr) (size : Int) : Quiet (bulkBytes content size) := by
  apply (quiet_load content).bind
  intro c
  cases c with
  | chars bytes => exact Quiet.ite (.pure _) (.throw _)
  | base node => exact .throw _
  | array node content size => exact .throw _
  | bulk node content size => exact .throw _

theorem quiet_viewLoop (fuel : Nat) (p : Ptr) : Quiet (viewLoop fuel p) := by
  induction fuel generalizing p with
  | zero =>
    cases p with
    | none => exact .pure _
    | some a => exact .throw _
  | succ fuel ih =>
    cases p with
    | none => exact .pure _
    | some a =>
      refine (quiet_nodeOf _).bind fun node => (quiet_baseOf node).bind fun b => ?_
      obtain ⟨type, next, prev⟩ := b
      refine Quiet.bind (f := fun node => viewLoop fuel next >>= fun ns => pure (node :: ns)) ?_
        fun _ => (ih next).bind fun _ => .pure _
      cases type with
      | bulkStr =>
        refine (quiet_load _).bind fun c => ?_
        cases c with
        | bulk node content size => exact (quiet_bulkBytes content size).bind fun _ => .pure _
        | base node => exact .throw _
        | array node content size => exact .throw _
        | chars bytes => exact .throw _
      | array =>
        refine (quiet_load _).bind fun c => ?_
        cases c with
        | array node content size => exact (ih content).bind fun _ => .pure _
        | base node => exact .throw _
        | bulk node content size => exact .throw _
        | chars bytes => exact .throw _
      | undefDtype => exact .throw _
      | simpleStr => exact .throw _
      | int => exact .throw _
      | nillArray => exact .throw _
      | emptyArray => exact .throw _

theorem quiet_view (p : Ptr) : Quiet (view p) := Quiet.of_size fun n => quiet_viewLoop n p

end Trees

end RedisImpl
