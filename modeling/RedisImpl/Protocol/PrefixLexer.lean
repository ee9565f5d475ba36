import RedisImpl.Protocol.PrefixSize

/-!
# The lexer on a socket that fails
-/

namespace RedisImpl
namespace Recv

variable (env : RecvEnv) {m : Nat}

/-- A computation on the heap that frees something and gives up. -/
theorem GivesUp.lift_none {x : M Unit} (hx : Quiet x) :
    GivesUp (· = none) (Recv.lift (x >>= fun _ => pure (none : Ptr))) fun _ => x >>= fun _ => pure none := by
  refine GivesUp.lift (hx.bind fun _ => .pure _) fun w v a h => ?_
  obtain ⟨_, _, -, ha⟩ := M.of_bind_ok h
  cases ha
  rfl

theorem lexBulkStr_acts : Acts m 0 (· = none) (lexBulkStr env) fun _ => RedisImpl.lexBulkStr := by
  unfold lexBulkStr RedisImpl.lexBulkStr
  apply ((getElSize_acts env).mono le_rfl (Nat.zero_le 1)).then
  · intro strSize
    refine .ite (fun _ => .pure none) fun _ => ?_
    refine .ite (fun _ => ?_) fun hzero => ?_
    · apply (isValidTerminator_acts env).then
      · intro ok
        refine .ite (fun _ => .pure none) fun _ => .lift ?_
        exact (quiet_alloc _).bind fun empStr => quiet_newBulkStr empStr none none 0
      · rintro ok rfl
        exact .pure rfl
    refine .ite (fun _ => .lift (quiet_newBulkStr _ _ _ _)) fun _ => ?_
    refine .ite (fun _ => .pure none) fun _ => ?_
    refine .ite (fun _ => .pure none) fun hneg => ?_
    refine .lift_bind (quiet_alloc _) fun buf => ?_
    have hpos : 0 < strSize.toNat := by omega
    refine .read env hpos (fun bytes => ?_) fun rtn bytes hrtn => ?_
    · simp only [show ¬ ((1 : Int) = 0 ∨ (1 : Int) = -1) by decide, if_false]
      refine .lift_bind (quiet_store _ _) fun _ => ?_
      apply (isValidTerminator_acts env).then
      · intro ok
        refine .ite (fun _ => .lift ?_) fun _ => .lift (quiet_newBulkStr _ _ _ _)
        exact (quiet_free buf).bind fun _ => .pure _
      · rintro ok rfl
        exact .lift_none (quiet_free buf)
    · simp only [hrtn, if_true]
      exact .lift_none (quiet_free buf)
  · rintro strSize rfl
    exact GivesUp.pure rfl

section Lexer

variable (unset : Heap Cell → Ptr)

/-- What `current` holds when it was not set. -/
def unsetOf (w : World) : Ptr := unset w.heap

theorem lexCurrent_acts {lexer' : SockM Ptr} {lexer : Nat → M Ptr}
    (hl : Acts m 0 (· = none) lexer' lexer) (nextChar : UInt8) :
    Acts m 0 (· = none) (lexCurrent env unset lexer' nextChar)
      fun f => RedisImpl.lexCurrent (unsetOf unset) (lexer f) nextChar := by
  refine .ite (fun _ => lexBulkStr_acts env) fun _ => .ite (fun _ => hl) fun _ => .lift ?_
  exact Quiet.of_heap (fun h => .ok (unset h, h)) fun _ => rfl

/-- The loop, with a lexer for the elements that are arrays. -/
theorem lexElements_acts {lexer' : SockM Ptr} {lexer : Nat → M Ptr}
    (hl : Acts m 0 (· = none) lexer' lexer) (arrSize : Int) (left : Nat) (array previous : Ptr) :
    Acts m 0 (· = none) (lexElements env unset lexer' arrSize left array previous)
      fun f => RedisImpl.lexElements (unsetOf unset) (lexer f) arrSize left array previous := by
  induction left generalizing array previous with
  | zero => exact .pure array
  | succ left ih =>
    simp only [lexElements, RedisImpl.lexElements]
    apply Acts.read env Nat.one_pos
    · intro nextChar
      simp only [show ¬ ((1 : Int) = 0 ∨ (1 : Int) = -1) by decide, if_false]
      refine Acts.bind (d := 0) (e := 0) (lexCurrent_acts env unset hl _)
        (k := fun current f => if current.isNone then (do
            deleteArray previous
            return none)
          else (do
            let array ← linkElement arrSize array previous current
            RedisImpl.lexElements (unsetOf unset) (lexer f) arrSize left array current)) ?_ ?_
      · intro current
        refine .ite (fun _ => .lift ?_) fun _ => ?_
        · exact (quiet_deleteArray previous).bind fun _ => .pure _
        · exact .lift_bind (quiet_linkElement _ _ _ _) fun array => ih array current
      · rintro current rfl
        exact .lift_none (quiet_deleteArray previous)
    · intro rtn nextChar hrtn
      simp only [hrtn, if_true]
      exact .lift_none (quiet_deleteArray previous)

theorem lexerLoop_acts (fuel : Nat) :
    Acts fuel 0 (· = none) (lexerLoop env unset fuel) (RedisImpl.lexerLoop (unsetOf unset)) := by
  induction fuel with
  | zero => exact fun s hs => absurd hs (Nat.not_lt_zero _)
  | succ fuel ih =>
    let k (arrSize : Int) (f : Nat) : M Ptr :=
      if arrSize = errInvChar then pure none
      else if arrSize = -1 then (do
        let node ← newBaseNode .nillArray none none
        newArray node none none 1)
      else if arrSize = 0 then (do
        let node ← newBaseNode .emptyArray none none
        newArray node none none 1)
      else RedisImpl.lexElements (unsetOf unset) (RedisImpl.lexerLoop (unsetOf unset) f) arrSize
        (BitVec.ofInt 32 arrSize).toNat none none
    have hvoid (type : RedisDtype) : Quiet (do
        let node ← newBaseNode type none none
        newArray node none none 1 : M Ptr) :=
      (quiet_newBaseNode _ _ _).bind fun _ => quiet_newArray _ _ _ _
    rw [lexerLoop]
    -- the size takes a byte, which is one less for the elements
    refine ((Acts.bind (d := 1) (e := 0) (k := k) (getElSize_acts env) ?_ ?_).mono le_rfl
      (Nat.zero_le _)).congr fun f => rfl
    · intro arrSize
      refine .ite (fun _ => .pure none) fun _ => .ite (fun _ => .lift (hvoid _)) fun _ => ?_
      exact .ite (fun _ => .lift (hvoid _)) fun _ => lexElements_acts env unset ih arrSize _ none none
    · rintro arrSize rfl
      exact .pure rfl

/-- What `lexer` does on a socket, it does on a beginning of the input. -/
theorem lexer_acts :
    Acts m 0 (· = none) (lexer env unset) fun _ => RedisImpl.lexer (unsetOf unset) :=
  fun s _ => (lexerLoop_acts env unset _ s (Nat.lt_succ_self _)).at_length fun _ => rfl

end Lexer

end Recv
end RedisImpl
