import RedisImpl.Cmd.KeyValue

/-!
# The parser of SET's arguments

`validate_set_cmd` and the functions it calls. The parsing state is the `char` bitmap of the
source: bits 6, 5, 4 for the command, the key and the value, bits 3 to 0 for NX/XX, GET, the expiry
option and its value; `-1` is the error. `parsed_cmd` is the array of six node pointers.
-/

namespace RedisImpl

/-- `OptionType`. -/
inductive OptionType where
  | nx
  | xx
  | get
  | ex
  | px
  | exat
  | pxat
  | invalid
  deriving DecidableEq

/-- `get_option_type`: `strcmp` sees the option up to its first NUL. -/
def getOptionType (option : Bytes) : OptionType :=
  if cstr option = ascii "NX" then .nx else
  if cstr option = ascii "XX" then .xx else
  if cstr option = ascii "GET" then .get else
  if cstr option = ascii "EX" then .ex else
  if cstr option = ascii "PX" then .px else
  if cstr option = ascii "EXAT" then .exat else
  if cstr option = ascii "PXAT" then .pxat else
  .invalid

/-- The word of an option. -/
def OptionType.name : OptionType → Option Bytes
  | .nx => some (ascii "NX")
  | .xx => some (ascii "XX")
  | .get => some (ascii "GET")
  | .ex => some (ascii "EX")
  | .px => some (ascii "PX")
  | .exat => some (ascii "EXAT")
  | .pxat => some (ascii "PXAT")
  | .invalid => none

/-- The words of different options are different. -/
theorem getOptionType_name {t : OptionType} {name w : Bytes} (hn : t.name = some name)
    (hw : cstr w = name) : getOptionType w = t := by
  subst hw
  unfold getOptionType
  cases t with
  | invalid => cases hn
  | nx | xx | get | ex | px | exat | pxat =>
    rw [← Option.some.inj hn]
    decide

/-- An option is recognised by its word, compared as a C string. -/
theorem getOptionType_eq {t : OptionType} {name : Bytes} (hn : t.name = some name) (w : Bytes) :
    getOptionType w = t ↔ cstr w = name := by
  refine ⟨fun h => ?_, getOptionType_name hn⟩
  unfold getOptionType at h
  split_ifs at h <;> subst h
  all_goals first
    | (rename_i hw; exact hw.trans (Option.some.inj hn))
    | cases hn

/-- The literals of `Fin 6`, the indices of `parsed_cmd`, rest on this. -/
instance neZero_slots : NeZero 6 := ⟨by decide⟩

/-- The array `parsed_cmd`. -/
abbrev ParsedCmd := Fin 6 → Option Node

/-- The state after an error. -/
def stateError : BitVec 8 := BitVec.ofInt 8 (-1)

/-- What the functions of the parser update: `state`, `parsed_cmd` and the node they are at. -/
structure SetParser where
  state : BitVec 8
  parsedCmd : ParsedCmd
  gnode : List Node

/-- `is_set_option_valid`: the bits `bit_pos`, ..., 0 of the state are all 0. -/
def isSetOptionValid (state : BitVec 8) : Nat → Bool
  | 0 => !state.getLsbD 0
  | bitPos + 1 => !state.getLsbD (bitPos + 1) && isSetOptionValid state bitPos

/-- `handle_set_options`. -/
def handleSetOptions (p : SetParser) (bitPos : Fin 6) : SetParser :=
  match p.gnode with
  | [] => { p with state := stateError }
  | n :: next =>
    if !isSetOptionValid p.state bitPos then { p with state := stateError } else
    { state := p.state ||| 1#8 <<< (bitPos : Nat)
      parsedCmd := Function.update p.parsedCmd bitPos (some n)
      gnode := next }

/-- `__validate_px_ex_content`: the state after it. -/
def validatePxExContent (node : Bytes) (state : BitVec 8) : BitVec 8 :=
  if state.toInt < 0 then state else
  if node.length < 1 then stateError else
  if node.all isDigit then state else stateError

/-- `set_cmd_stage_a`. The do-while runs its body once in state `0b01000000`, for the key, and once
in state `0b01100000`, for the value. -/
def setCmdStageA (gnode : List Node) : SetParser :=
  let parsedCmd : ParsedCmd := fun _ => none
  match gnode with
  | .bulk k :: v :: rest =>
    let parsedCmd := Function.update parsedCmd 5 (some (.bulk k))
    match v with
    | .bulk b => ⟨0b01110000#8, Function.update parsedCmd 4 (some (.bulk b)), rest⟩
    | .array _ _ => ⟨stateError, parsedCmd, []⟩
  | _ => ⟨stateError, parsedCmd, []⟩

/-- One pass of the loop of `validate_set_cmd` over the node `option`; `none` is `return NULL`. -/
def validateOption (p : SetParser) (option : Bytes) : Option SetParser :=
  match getOptionType option with
  | .nx | .xx => some (handleSetOptions p 3)
  | .get => some (handleSetOptions p 2)
  | .ex | .exat | .px | .pxat =>
    let p := handleSetOptions p 1
    match p.gnode with
    | [.bulk lastNd] =>
      let p := handleSetOptions p 0
      some { p with state := validatePxExContent lastNd p.state }
    | _ => none
  | .invalid => none

/-- The loop of `validate_set_cmd`, at most `fuel` passes. -/
def validateLoop : Nat → SetParser → Option SetParser
  | 0, _ => none
  | fuel + 1, p =>
    match p.gnode with
    | [] => some p
    | n :: _ =>
      if ¬ p.state.toInt > 0 then some p else
      match n with
      | .array _ _ => none
      | .bulk option => (validateOption p option).bind (validateLoop fuel)

/-- `validate_set_cmd`: the state and the parsed command if it does not return NULL. Each pass of
the loop takes a node or ends it, so `node.length + 1` passes are enough (`validateLoop_fuel`). -/
def validateSetCmd (node : List Node) : Option (BitVec 8 × ParsedCmd) :=
  if node.isEmpty then none else
  match validateLoop (node.length + 1) (setCmdStageA node) with
  | none => none
  | some p => if p.state.toInt < 0 then none else some (p.state, p.parsedCmd)

end RedisImpl
