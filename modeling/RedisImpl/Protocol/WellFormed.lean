import RedisImpl.Protocol.Laid
import RedisImpl.Protocol.Refine
import RedisImpl.Protocol.Tracks

/-!
# Which messages give a well-formed tree

`lexer_took`: where the lexer returns a tree, the reader that takes strays as shapes reads the same
bytes, whatever the memory and the uninitialised variable hold.

`wellFormed_iff`: what the lexer returns for a stream is a well-formed tree, in every memory and for
every value of the variable, exactly if the message is one that does not end, or has no flaw. A
size prefix of 8192 digits or more is no item of a message: `get_el_size` writes outside its buffer
there, so the lexer returns no tree.
-/

namespace RedisImpl

open Heap

/-- The computation takes no input. -/
def KeepsInp {α : Type} (m : M α) : Prop := ∀ w a v, m w = .ok (a, v) → v.inp = w.inp

namespace KeepsInp

variable {α β : Type}

theorem pure (a : α) : KeepsInp (pure a : M α) := by
  intro w b v h
  cases h
  rfl

theorem throw (e : Fault) : KeepsInp (throw e : M α) := by
  intro w b v h
  cases h

theorem bind {x : M α} {f : α → M β} (hx : KeepsInp x) (hf : ∀ a, KeepsInp (f a)) :
    KeepsInp (x >>= f) := by
  intro w b v h
  obtain ⟨a, u, hxa, hfa⟩ := M.of_bind_ok h
  rw [hf a u b v hfa, hx w a u hxa]

theorem load (p : Ptr) : KeepsInp (RedisImpl.load p) := by
  intro w c v h
  unfold RedisImpl.load at h
  split at h
  · cases h
    rfl
  · cases h

theorem alloc (c : Cell) : KeepsInp (RedisImpl.alloc c) := by
  intro w p v h
  cases h
  rfl

theorem store (p : Ptr) (c : Cell) : KeepsInp (RedisImpl.store p c) := by
  intro w a v h
  unfold RedisImpl.store at h
  split at h
  · split at h
    · cases h
      rfl
    · cases h
  · cases h

theorem nodeOf (p : Ptr) : KeepsInp (RedisImpl.nodeOf p) := by
  refine (load p).bind fun c => ?_
  cases c with
  | array node content size => exact pure node
  | bulk node content size => exact pure node
  | base b => exact throw .misread
  | chars bytes => exact throw .misread

theorem baseOf (p : Ptr) : KeepsInp (RedisImpl.baseOf p) := by
  refine (load p).bind fun c => ?_
  cases c with
  | base b => exact pure b
  | array node content size => exact throw .misread
  | bulk node content size => exact throw .misread
  | chars bytes => exact throw .misread

theorem setPrev (p q : Ptr) : KeepsInp (RedisImpl.setPrev p q) :=
  (nodeOf p).bind fun n => (baseOf n).bind fun _ => store n _

theorem setNext (p q : Ptr) : KeepsInp (RedisImpl.setNext p q) :=
  (nodeOf p).bind fun n => (baseOf n).bind fun _ => store n _

theorem linkElement (size : Int) (array previous current : Ptr) :
    KeepsInp (RedisImpl.linkElement size array previous current) := by
  refine bind ?_ fun a => ?_
  · cases array with
    | none => exact ((alloc _).bind fun _ => alloc _).bind fun a => (setPrev _ _).bind fun _ => pure a
    | some a => exact (setPrev _ _).bind fun _ => pure _
  · cases previous with
    | none => exact (pure ()).bind fun _ => pure a
    | some q => exact (setNext _ _).bind fun _ => pure a

end KeepsInp

/-! ## What was taken -/

section Took

variable {unset : World → Ptr} {w v : World} {p : Nat}

theorem giveUp_not_some {previous : Ptr} :
    (do deleteArray previous; return none : M Ptr) w ≠ .ok (some p, v) := by
  intro h
  obtain ⟨-, u, -, h⟩ := M.of_bind_ok h
  cases h

theorem lexBulkStr_took (h : lexBulkStr w = .ok (some p, v)) :
    ∃ b, readBulk w.inp = .done b v.inp := by
  have hr := lexBulkStr_refines true ⟨0, 0⟩ (Owns.nil w.heap)
  cases hb : readBulk w.inp with
  | done b rest =>
    rw [hb] at hr
    obtain ⟨p', n, c, h', hrun, -⟩ := hr
    rw [h] at hrun
    cases hrun
    exact ⟨b, rfl⟩
  | reject =>
    rw [hb] at hr
    obtain ⟨v', hrun, -⟩ := hr
    rw [h] at hrun
    cases hrun
  | fault =>
    rw [hb] at hr
    obtain ⟨e, hrun⟩ := hr
    rw [h] at hrun
    cases hrun

/-- The loop, if `rd` reads what `lexer` takes. -/
theorem lexElements_took {lexer : M Ptr} {rd : Bytes → Outcome (Shape true)}
    (hrec : ∀ w p v, lexer w = .ok (some p, v) → ∃ e, rd w.inp = .done e v.inp) {size : Int}
    {k : Nat} {array previous : Ptr} (els : List (Shape true))
    (h : lexElements unset lexer size k array previous w = .ok (some p, v)) :
    ∃ els', readElements rd k els w.inp = .done els' v.inp := by
  induction k generalizing els array previous w with
  | zero =>
    cases h
    exact ⟨els, rfl⟩
  | succ k ih =>
    cases hi : w.inp with
    | nil =>
      rw [lexElements, M.bind_ok (readExactBytes_one_nil hi)] at h
      exact absurd h giveUp_not_some
    | cons c bs =>
      rw [lexElements, M.bind_ok (readExactBytes_one_cons hi)] at h
      obtain ⟨current, u, hcur, hafter⟩ := M.of_bind_ok h
      cases current with
      | none => exact absurd hafter giveUp_not_some
      | some q =>
        obtain ⟨array', u', hlink, hrest⟩ := M.of_bind_ok hafter
        have hinp : u'.inp = u.inp := KeepsInp.linkElement _ _ _ _ _ _ _ hlink
        unfold lexCurrent at hcur
        rw [readElements]
        by_cases h36 : c = 36
        · subst h36
          obtain ⟨b, hb⟩ := lexBulkStr_took hcur
          rw [if_pos rfl, hb, ← hinp]
          exact ih _ hrest
        by_cases h42 : c = 42
        · subst h42
          obtain ⟨e, he⟩ := hrec _ _ _ hcur
          rw [if_neg h36, if_pos rfl, he, ← hinp]
          exact ih _ hrest
        · -- `current` is what the variable holds, and no byte is taken for it
          have hu : u = ⟨w.heap, bs⟩ := by
            rw [List.headD_cons, if_neg (by exact h36), if_neg (by exact h42)] at hcur
            exact (Prod.mk.inj (Except.ok.inj hcur)).2.symm
          subst hu
          rw [if_neg h36, if_neg h42, dif_pos rfl, show bs = u'.inp from hinp.symm]
          exact ih _ hrest

theorem lexerLoop_took {fuel : Nat} (h : lexerLoop unset fuel w = .ok (some p, v)) :
    ∃ e, readArray true fuel w.inp = .done e v.inp := by
  induction fuel generalizing w p v with
  | zero => cases h
  | succ fuel ih =>
    have hsize := getElSize_eq w
    rw [readArray]
    cases hr : readSize w.inp with
    | bad =>
      rw [hr] at hsize
      obtain ⟨rest, hg⟩ := hsize
      rw [lexerLoop, M.bind_ok hg] at h
      cases h
    | long =>
      rw [hr] at hsize
      rw [lexerLoop, M.bind_error (show getElSize w = .error .outOfBounds from hsize)] at h
      cases h
    | size n rest =>
      rw [hr] at hsize
      have hg : getElSize w = .ok (n, { w with inp := rest }) := hsize
      rw [lexerLoop, M.bind_ok hg] at h
      simp only []
      by_cases h2 : n = errInvChar
      · rw [if_pos h2] at h
        cases h
      by_cases h1 : n = -1
      · rw [if_neg h2, if_pos h1] at h
        rw [if_neg h2, if_pos h1]
        cases h
        exact ⟨_, rfl⟩
      by_cases h0 : n = 0
      · rw [if_neg h2, if_neg h1, if_pos h0] at h
        rw [if_neg h2, if_neg h1, if_pos h0]
        cases h
        exact ⟨_, rfl⟩
      rw [if_neg h2, if_neg h1, if_neg h0] at h
      rw [if_neg h2, if_neg h1, if_neg h0]
      obtain ⟨els, hels⟩ := lexElements_took (fun w p v h => ih h) [] h
      refine ⟨.array n els, ?_⟩
      rw [show rest = ({ w with inp := rest } : World).inp from rfl, hels]

/-- Where the lexer returns a tree, the reader has taken the same bytes. -/
theorem lexer_took (h : lexer unset w = .ok (some p, v)) :
    ∃ e, readRequest true w.inp = .done e v.inp :=
  lexerLoop_took h

end Took

/-! ## Well-formed messages -/

/-- Whatever the memory and the uninitialised variable hold, a tree that the lexer returns for the
stream `bs` is well formed, and the functions that walk over it do so without a fault. -/
def WellFormed (bs : Bytes) : Prop :=
  ∀ heap unset p v, lexer unset ⟨heap, bs⟩ = .ok (some p, v) →
    ∃ node, Laid v.heap none none node p ∧ printArray (some p) v = .ok ((), v) ∧
      view (some p) v = .ok ([node], v) ∧ ∃ u, deleteArray (some p) v = .ok ((), u)

mutual

/-- A shape without flaws has no `void`. -/
theorem Shape.spoiled_of_flawed (e : Shape false) (h : e.flawed true = false) :
    e.spoiled = false := by
  cases e with
  | bulk b => rfl
  | array size els =>
    rw [Shape.flawed, Bool.or_eq_false_iff] at h
    exact Shape.spoiledList_of_flawedList els h.2
  | void type => cases h
  | stray hs => cases hs

theorem Shape.spoiledList_of_flawedList (es : List (Shape false))
    (h : Shape.flawedList true es = false) : Shape.spoiledList es = false := by
  cases es with
  | nil => rfl
  | cons e es =>
    rw [Shape.flawedList, Bool.or_eq_false_iff] at h
    rw [Shape.spoiledList, Shape.spoiled_of_flawed e h.1, Shape.spoiledList_of_flawedList es h.2]
    rfl

end

/-- Without strays as shapes, no record is needed where the variable points to. -/
theorem lexer_refines_false (unset : World → Ptr) (w : World) :
    Refines ⟨0, 0⟩ unset w (readRequest false w.inp) (lexer unset w) :=
  lexer_refines (fun hs => by cases hs) w

/-- What the lexer does with a stream whose reader builds a shape without flaws. -/
theorem lexer_unflawed (unset : World → Ptr) {w : World} {e : Shape false} {rest : Bytes}
    (hr : readRequest false w.inp = .done e rest) (hc : e.flawed true = false) :
    ∃ p h, lexer unset w = .ok (some p, ⟨h, rest⟩) ∧ Laid h none none e.toNode p ∧
      printArray (some p) ⟨h, rest⟩ = .ok ((), ⟨h, rest⟩) ∧
      view (some p) ⟨h, rest⟩ = .ok ([e.toNode], ⟨h, rest⟩) ∧
      ∃ u, deleteArray (some p) ⟨h, rest⟩ = .ok ((), ⟨u, rest⟩) := by
  have href := (lexer_refines_false unset w) [] none none (Owns.nil w.heap)
  rw [hr] at href
  obtain ⟨t, h, sn, sp, rfl, hrun, ho⟩ := href
  have hs := Shape.spoiled_of_flawed _ hc
  obtain ⟨u, hd, -⟩ := deleteArrayVisits_root (w := ⟨h, rest⟩) ho hs
  exact ⟨t.ptr _, h, hrun, laid_of_load t ho.left.load hc, printArray_lay (w := ⟨h, rest⟩) ho hs,
    view_lay (w := ⟨h, rest⟩) ho hs, u, deleteArray_of_visits hd⟩

theorem wellFormed_of_unflawed {bs : Bytes}
    (h : (∃ out, Accepted 1 (42 :: bs) out) → ¬ Meets (flaw true ·) 1 (42 :: bs)) :
    WellFormed bs := by
  intro heap unset p v hrun
  obtain ⟨e, he⟩ := lexer_took hrun
  have htrue := readRequest_tracks true true bs
  rw [show readRequest true bs = .done e v.inp from he] at htrue
  obtain ⟨-, -, hacc⟩ := htrue
  have hfin : Accepted 1 (42 :: bs) v.inp := (hacc 0 v.inp).mpr (.done v.inp)
  have hm := h ⟨v.inp, hfin⟩
  have hfalse := readRequest_tracks false true bs
  have hfault := readRequest_tracks false false bs
  cases hr : readRequest false bs with
  | done e' rest =>
    rw [hr] at hfalse
    obtain ⟨-, hf, -⟩ := hfalse
    have hc : e'.flawed true = false := by
      rw [← Bool.not_eq_true]
      intro hc
      have := (hf 0).mpr (.inl hc)
      simp only [Bool.false_eq_true, false_or] at this
      exact hm this
    obtain ⟨q, h', hrun', hlaid, hprint, hview, u, hdel⟩ :=
      lexer_unflawed unset (w := ⟨heap, bs⟩) hr hc
    rw [hrun] at hrun'
    cases hrun'
    exact ⟨_, hlaid, hprint, hview, _, hdel⟩
  | reject =>
    rw [hr] at hfalse
    exact absurd hfin (hfalse.1 0 _)
  | fault =>
    rw [hr] at hfault
    have := hfault.2 rfl rfl 0
    simp only [Bool.false_eq_true, false_or] at this
    refine absurd (this.mono fun bs hb => ?_) hm
    rw [flaw_eq_or] at hb ⊢
    exact .inl (hb.resolve_right fun hx => by cases hx.1)

/-- A memory with one record, an array of undefined type. -/
def strayHeap : Heap Cell := ⟨[some (.base ⟨.undefDtype, none, none⟩), some (.array (some 0) none 0)]⟩

theorem owns_strayHeap : Owns strayHeap (Lay.strays ⟨1, 0⟩ true none none ++ []) where
  nodup := by decide
  load b hb := by
    rcases List.mem_cons.mp hb with rfl | hb
    · rfl
    · obtain rfl := List.mem_singleton.mp hb
      rfl

/-- If what the lexer returns for a message that ends is always laid out as some request, the message
has no flaw: with the uninitialised variable at `strayHeap`, all of them show. -/
theorem unflawed_of_laid {bs out : Bytes}
    (hl : ∀ unset heap p v, lexer unset ⟨heap, bs⟩ = .ok (some p, v) →
      ∃ node, Laid v.heap none none node p)
    (hacc : Accepted 1 (42 :: bs) out) : ¬ Meets (flaw true ·) 1 (42 :: bs) := by
  intro hm
  have ht := readRequest_tracks true true bs
  have hrefines : Refines ⟨1, 0⟩ (fun _ => some 1) ⟨strayHeap, bs⟩ (readRequest true bs)
      (lexer (fun _ => some 1) ⟨strayHeap, bs⟩) := lexer_refines (fun _ _ => rfl) ⟨strayHeap, bs⟩
  have href := hrefines [] none none owns_strayHeap
  cases hr : readRequest true bs with
  | done e rest =>
    rw [hr] at ht
    obtain ⟨-, hf, -⟩ := ht
    have hc : e.flawed true = true :=
      ((hf 0).mp (.inr hm)).resolve_right not_meets_zero
    rw [hr] at href
    obtain ⟨t, h, sn, sp, rfl, hrun, ho⟩ := href
    obtain ⟨node, hlaid⟩ := hl _ _ _ _ hrun
    have hst := ho.right.left
    have hloads : Loads h ⟨1, 0⟩ (t.blocks ⟨1, 0⟩ none none) :=
      ⟨ho.left.load, hst.load_of_mem (List.mem_cons_of_mem _ List.mem_cons_self),
        sn, sp, hst.load_of_mem List.mem_cons_self⟩
    rw [(laid_agree t hloads hlaid).1] at hc
    cases hc
  | reject =>
    rw [hr] at ht
    exact ht.1 0 _ hacc
  | fault =>
    rw [hr] at ht
    exact ht.1 rfl 0 _ hacc

/-- What the lexer returns for a message is well formed if and only if the message does not end, or
has a size prefix of 8192 digits or more, so that there is no tree, or it has no flaw: no type byte other than `$` and `*`, no empty or nil
array, no array whose size is negative as an `int`. -/
theorem wellFormed_iff (bs : Bytes) :
    WellFormed bs ↔ ((∃ out, Accepted 1 (42 :: bs) out) → ¬ Meets (flaw true ·) 1 (42 :: bs)) :=
  ⟨fun hw ⟨_, hacc⟩ => unflawed_of_laid (fun _ _ _ _ hrun => (hw _ _ _ _ hrun).imp fun _ h => h.1)
    hacc, wellFormed_of_unflawed⟩

/-- `*0`: `print_array` takes the `BaseNode` of the empty array for an element. -/
theorem emptyArray_not_wellFormed : ¬ WellFormed (ascii "0\r\n") := by
  intro hw
  obtain ⟨node, -, hprint, -⟩ := hw Heap.empty (fun _ => none) 2
    ⟨⟨[some (.base ⟨.emptyArray, none, none⟩), some (.base ⟨.array, none, none⟩),
      some (.array (some 1) (some 0) 1)]⟩, []⟩ rfl
  cases hprint

end RedisImpl
