import RedisImpl.Protocol.Lexer

/-!
# What a clean-up visits

`delete_array` and the lexer once more, with an account of the records that they come to: for a call
of `delete_array(el, 1)` those that its loops visit (`Visits`), and for a run of `lexer` the records
that it made and, for each level where it gave up, the call there (`Trace`).

Nothing else is added: without the account they are the functions of `Protocol/Lexer.lean`
(`deleteArrayVisits_erase`, `lexerVisits_erase`).
-/

namespace RedisImpl

/-- `rewind`, with the records that it looks at. -/
def rewindVisits : Nat → Ptr → M (Ptr × List Nat)
  | 0, _ => throw .timeout
  | fuel + 1, current => do
    let b ← baseOf (← nodeOf current)
    match b.prev with
    | none => return (current, current.toList)
    | some prev =>
      let r ← rewindVisits fuel (some prev)
      return (r.1, current.toList ++ r.2)

/-- `deleteLoop`, with the elements that it handles, one for each pass. -/
def deleteVisits : Nat → Ptr → M (List Nat)
  | _, none => return []
  | 0, some _ => throw .timeout
  | fuel + 1, some p => do
    let b ← baseOf (← nodeOf (some p))
    match b.type with
    | .array =>
      match ← load (some p) with
      | .array node content _ =>
        let below ← deleteVisits fuel content
        free node
        let later ← deleteVisits fuel b.next
        return p :: (below ++ later)
      | _ => throw .misread
    | .bulkStr =>
      match ← load (some p) with
      | .bulk node content _ =>
        free node
        free content
        free (some p)
        let later ← deleteVisits fuel b.next
        return p :: later
      | _ => throw .misread
    | _ =>
      if b.next.isSome then
        let again ← deleteVisits fuel (some p)
        return p :: again
      else return [p]

/-- The records that the loop backwards looks at, and those that the loop forwards handles. -/
structure Visits where
  back : List Nat
  handled : List Nat

/-- `delete_array(el, 1)`. -/
def deleteArrayVisits (el : Ptr) : M Visits := fun w =>
  if el.isNone then .ok (⟨[], []⟩, w) else
  (do
    let r ← rewindVisits (w.heap.size + 1) el
    let handled ← deleteVisits (w.heap.size + 1) r.1
    return Visits.mk r.2 handled) w

section Erase

variable {α β γ δ : Type}

theorem map_run (f : α → β) (m : M α) (w : World) :
    (f <$> m) w = (m w).map fun r => (f r.1, r.2) := by
  show (m w >>= fun r => pure (f r.1, r.2)) = _
  cases m w with
  | error e => rfl
  | ok r => rfl

/-- Leaving out the account of a part, and of what follows it. -/
theorem erase_bind {f : α → β} {g : γ → δ} {x : M α} {y : M β} {k : α → M γ} {l : β → M δ}
    (hx : f <$> x = y) (hk : ∀ a, g <$> k a = l (f a)) : g <$> (x >>= k) = y >>= l := by
  subst hx
  rw [map_bind, bind_map_left]
  exact bind_congr hk

/-- Leaving it out of what follows a part that is the same in both. -/
theorem erase_congr {g : γ → δ} {x : M α} {k : α → M γ} {l : α → M δ}
    (hk : ∀ a, g <$> k a = l a) : g <$> (x >>= k) = x >>= l := by
  rw [map_bind]
  exact bind_congr hk

/-- Leaving it out of a result that is returned. -/
theorem erase_return {f : α → β} {g : γ → β} {x : M α} {y : M β} {k : α → γ} (hx : f <$> x = y)
    (hk : ∀ a, g (k a) = f a) : g <$> (x >>= fun a => pure (k a)) = y := by
  subst hx
  rw [map_bind, map_eq_pure_bind]
  refine bind_congr fun a => ?_
  rw [map_pure, hk]

end Erase

theorem rewindVisits_erase (fuel : Nat) (p : Ptr) :
    Prod.fst <$> rewindVisits fuel p = rewind fuel p := by
  induction fuel generalizing p with
  | zero => rfl
  | succ fuel ih =>
    refine erase_congr fun node => erase_congr fun b => ?_
    cases b.prev with
    | none => exact map_pure _ _
    | some prev => exact erase_return (ih _) fun _ => rfl

theorem deleteVisits_erase (fuel : Nat) (p : Ptr) :
    (fun _ => ()) <$> deleteVisits fuel p = deleteLoop fuel p := by
  induction fuel generalizing p with
  | zero => cases p <;> rfl
  | succ fuel ih =>
    cases p with
    | none => rfl
    | some p =>
      refine erase_congr fun node => erase_congr fun b => ?_
      cases b.type with
      | array =>
        refine erase_congr fun c => ?_
        cases c with
        | array node content size =>
          refine erase_bind (ih _) fun _ => erase_congr fun _ => ?_
          exact erase_return (ih _) fun _ => rfl
        | _ => rfl
      | bulkStr =>
        refine erase_congr fun c => ?_
        cases c with
        | bulk node content size =>
          refine erase_congr fun _ => erase_congr fun _ => erase_congr fun _ => ?_
          exact erase_return (ih _) fun _ => rfl
        | _ => rfl
      | _ =>
        show (fun _ => ()) <$> (if b.next.isSome then _ else _) = (if b.next.isSome then _ else _)
        split
        · exact erase_return (ih _) fun _ => rfl
        · rfl

/-- `delete_array`, without the account. -/
theorem deleteArrayVisits_erase (el : Ptr) :
    (fun _ => ()) <$> deleteArrayVisits el = deleteArray el := by
  funext w
  rw [map_run, deleteArrayVisits, deleteArray]
  by_cases hel : el.isNone
  · rw [if_pos hel, if_pos hel]
    rfl
  · rw [if_neg hel, if_neg hel]
    refine (map_run (fun _ => ()) _ w).symm.trans ?_
    refine congrFun (erase_bind (rewindVisits_erase _ el) fun r => ?_) w
    exact erase_return (deleteVisits_erase _ _) fun _ => rfl

/-! ## The lexer -/

/-- A level where the lexer gave up: the records read there so far, with those nested below them and
the array's own, and what `delete_array` visited. -/
structure CleanUp where
  level : List Nat
  visits : Visits

/-- The records that a run of the lexer read, finished or not, and the levels where it gave up, from
the innermost one outwards. -/
structure Trace where
  read : List Nat
  cleanUps : List CleanUp

/-- Giving up at a level. -/
def giveUpVisits (previous : Ptr) (level : List Nat) (t : Trace) : M (Ptr × Trace) := do
  let visits ← deleteArrayVisits previous
  return (none, ⟨level ++ t.read, t.cleanUps ++ [⟨level, visits⟩]⟩)

/-- `lexCurrent`. A bulk string is read when its record is there. -/
def lexCurrentVisits (unset : World → Ptr) (lexer : M (Ptr × Trace)) (nextChar : UInt8) :
    M (Ptr × Trace) :=
  if nextChar = dollarByte then do
    let current ← lexBulkStr
    return (current, ⟨current.toList, []⟩)
  else if nextChar = asteriskByte then lexer
  else fun w => .ok ((unset w, ⟨[], []⟩), w)

/-- `lexElements`, with the records that were read at this level. -/
def lexElementsVisits (unset : World → Ptr) (lexer : M (Ptr × Trace)) (arrSize : Int) :
    Nat → (array previous : Ptr) → (level : List Nat) → M (Ptr × Trace)
  | 0, array, _, level => return (array, ⟨level, []⟩)
  | left + 1, array, previous, level => do
    match ← readExactBytes 1 with
    | none => giveUpVisits previous level ⟨[], []⟩
    | some nextChar =>
      let r ← lexCurrentVisits unset lexer (nextChar.headD 0)
      if r.1.isNone then giveUpVisits previous level r.2
      else
        let new ← linkElement arrSize array previous r.1
        let level := level ++ r.2.read ++ if array.isNone then new.toList else []
        lexElementsVisits unset lexer arrSize left new r.1 level

/-- `lexerLoop`. -/
def lexerLoopVisits (unset : World → Ptr) : Nat → M (Ptr × Trace)
  | 0 => throw .timeout
  | fuel + 1 => do
    let arrSize ← getElSize
    if arrSize = errInvChar then return (none, ⟨[], []⟩)
    if arrSize = -1 then
      let node ← newBaseNode .nillArray none none
      let array ← newArray node none none 1
      return (array, ⟨array.toList, []⟩)
    else if arrSize = 0 then
      let node ← newBaseNode .emptyArray none none
      let array ← newArray node none none 1
      return (array, ⟨array.toList, []⟩)
    else
      lexElementsVisits unset (lexerLoopVisits unset fuel) arrSize (BitVec.ofInt 32 arrSize).toNat
        none none []

/-- `lexer`. -/
def lexerVisits (unset : World → Ptr) : M (Ptr × Trace) :=
  fun w => lexerLoopVisits unset (w.inp.length + 1) w

section Lexer

variable {unset : World → Ptr}

theorem giveUpVisits_erase (previous : Ptr) (level : List Nat) (t : Trace) :
    Prod.fst <$> giveUpVisits previous level t = (do deleteArray previous; return none : M Ptr) :=
  erase_bind (deleteArrayVisits_erase previous) fun _ => rfl

theorem lexCurrentVisits_erase {lexerV : M (Ptr × Trace)} {lexer : M Ptr}
    (hl : Prod.fst <$> lexerV = lexer) (c : UInt8) :
    Prod.fst <$> lexCurrentVisits unset lexerV c = lexCurrent unset lexer c := by
  unfold lexCurrentVisits lexCurrent
  split
  · exact (erase_congr fun _ => rfl).trans (bind_pure _)
  · split
    · exact hl
    · rfl

theorem lexElementsVisits_erase {lexerV : M (Ptr × Trace)} {lexer : M Ptr}
    (hl : Prod.fst <$> lexerV = lexer) (arrSize : Int) (left : Nat) (array previous : Ptr)
    (level : List Nat) :
    Prod.fst <$> lexElementsVisits unset lexerV arrSize left array previous level =
      lexElements unset lexer arrSize left array previous := by
  induction left generalizing array previous level with
  | zero => rfl
  | succ left ih =>
    refine erase_congr fun read => ?_
    cases read with
    | none => exact giveUpVisits_erase _ _ _
    | some nextChar =>
      refine erase_bind (lexCurrentVisits_erase hl _) fun r => ?_
      show Prod.fst <$> (if r.1.isNone then _ else _) = (if r.1.isNone then _ else _)
      split
      · exact giveUpVisits_erase _ _ _
      · exact erase_congr fun new => ih _ _ _

theorem lexerLoopVisits_erase (fuel : Nat) :
    Prod.fst <$> lexerLoopVisits unset fuel = lexerLoop unset fuel := by
  induction fuel with
  | zero => rfl
  | succ fuel ih =>
    refine erase_congr fun arrSize => ?_
    split
    · rfl
    split
    · exact erase_congr fun node => (erase_congr fun _ => rfl).trans (bind_pure _)
    split
    · exact erase_congr fun node => (erase_congr fun _ => rfl).trans (bind_pure _)
    · exact lexElementsVisits_erase ih _ _ _ _ _

/-- `lexer`, without the account. -/
theorem lexerVisits_erase : Prod.fst <$> lexerVisits unset = lexer unset := by
  funext w
  rw [map_run, lexerVisits, lexer, ← lexerLoopVisits_erase, map_run]

end Lexer

end RedisImpl
