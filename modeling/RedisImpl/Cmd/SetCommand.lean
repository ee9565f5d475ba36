import RedisImpl.Cmd.Execute

/-!
# The requests that the SET parser accepts

`SetCommand`: the arguments of a SET request, `key value [NX|XX] [GET] [EX|PX|EXAT|PXAT digits]`.
Its fields carry the proofs that the option words are the ones the parser knows and that the time is
a non-empty string of digits, so every `SetCommand` is a valid request.

* `SetCommand.args`: the request's argument nodes; `state` and `parsedCmd`: what the parser makes
  of them.
* `finish_step`: what one pass of the parser's loop does; the three phases of the loop
  (`finish_time`, `finish_get`, `finish_start`) follow from it.
* `validateSetCmd_eq_some`: the parser accepts exactly the argument lists of a `SetCommand`.
-/

namespace RedisImpl

/-- The four option words that take a time. -/
def OptionType.isTime : OptionType → Bool
  | .ex | .px | .exat | .pxat => true
  | _ => false

theorem OptionType.isTime_iff {t : OptionType} :
    t.isTime = true ↔ t = .ex ∨ t = .px ∨ t = .exat ∨ t = .pxat := by
  cases t <;> decide

/-- A word for NX or XX. -/
abbrev CondWord := { w : Bytes // getOptionType w = .nx ∨ getOptionType w = .xx }

/-- A word for GET. -/
abbrev GetWord := { w : Bytes // getOptionType w = .get }

/-- A word for an expiry option. -/
abbrev TimeWord := { w : Bytes // (getOptionType w).isTime = true }

theorem condWord_nx : getOptionType (ascii "NX") = .nx ∨ getOptionType (ascii "NX") = .xx := by
  decide

theorem timeWord_ex : (getOptionType (ascii "EX")).isTime = true := by decide

/-- A non-empty string of digits. -/
abbrev Digits := { ds : Bytes // ds ≠ [] ∧ ds.all isDigit = true }

structure SetCommand where
  key : Bytes
  value : Bytes
  nxxx : Option CondWord
  get : Option GetWord
  time : Option (TimeWord × Digits)
  deriving DecidableEq

/-- The words of an expiry option. -/
def timeArgs : Option (TimeWord × Digits) → List Node
  | none => []
  | some (w, ds) => [.bulk w, .bulk ds]

/-- The words of GET and an expiry option. -/
def getArgs (get : Option GetWord) (time : Option (TimeWord × Digits)) : List Node :=
  match get with
  | none => timeArgs time
  | some w => .bulk w :: timeArgs time

/-- The words of the options. -/
def optionArgs (nxxx : Option CondWord) (get : Option GetWord)
    (time : Option (TimeWord × Digits)) : List Node :=
  match nxxx with
  | none => getArgs get time
  | some w => .bulk w :: getArgs get time

/-- The argument nodes of the request. -/
def SetCommand.args (c : SetCommand) : List Node :=
  .bulk c.key :: .bulk c.value :: optionArgs c.nxxx c.get c.time

/-- The state of the parser after the options that are present. -/
def parserState (nxxx get time : Bool) : BitVec 8 :=
  0b01110000#8 ||| (if nxxx then 0b1000#8 else 0) ||| (if get then 0b100#8 else 0) |||
    (if time then 0b11#8 else 0)

/-- The slots of the expiry option. -/
def setTime (pc : ParsedCmd) : Option (TimeWord × Digits) → ParsedCmd
  | none => pc
  | some (w, ds) =>
    Function.update (Function.update pc 1 (some (.bulk w))) 0 (some (.bulk ds))

/-- The slot of GET. -/
def setGet (pc : ParsedCmd) : Option GetWord → ParsedCmd
  | none => pc
  | some w => Function.update pc 2 (some (.bulk w))

/-- The slot of NX and XX. -/
def setNxxx (pc : ParsedCmd) : Option CondWord → ParsedCmd
  | none => pc
  | some w => Function.update pc 3 (some (.bulk w))

/-- The slots of the key and the value. -/
def setKeyValue (k v : Bytes) : ParsedCmd :=
  Function.update (Function.update (fun _ => none) 5 (some (.bulk k))) 4 (some (.bulk v))

/-- The state that the parser ends in. -/
def SetCommand.state (c : SetCommand) : BitVec 8 :=
  parserState c.nxxx.isSome c.get.isSome c.time.isSome

/-- The array that the parser fills. -/
def SetCommand.parsedCmd (c : SetCommand) : ParsedCmd :=
  setTime (setGet (setNxxx (setKeyValue c.key c.value) c.nxxx) c.get) c.time

/-! ## One pass of the loop -/

/-- The end of `validate_set_cmd`, after its loop. -/
def finish (p : Option SetParser) : Option (BitVec 8 × ParsedCmd) :=
  match p with
  | none => none
  | some p => if p.state.toInt < 0 then none else some (p.state, p.parsedCmd)

theorem validateLoop_nil {fuel : Nat} {p : SetParser} (h : p.gnode = []) :
    validateLoop (fuel + 1) p = some p := by
  rw [validateLoop, h]

/-- An option finds its place if the bits from its own down are clear. -/
theorem isSetOptionValid_parserState (n g : Bool) :
    isSetOptionValid (parserState n g false) 3 = (!n && !g) ∧
    isSetOptionValid (parserState n g false) 2 = !g ∧
    isSetOptionValid (parserState n g false) 1 = true := by
  cases n <;> cases g <;> decide

theorem parserState_pos (n g t : Bool) : (parserState n g t).toInt > 0 := by
  cases n <;> cases g <;> cases t <;> decide

/-- The value of an expiry option must be digits. -/
theorem validatePxExContent_eq {state : BitVec 8} (h : state.toInt > 0) (ds : Bytes) :
    validatePxExContent ds state =
      if ds ≠ [] ∧ ds.all isDigit = true then state else stateError := by
  rw [validatePxExContent, if_neg (by omega)]
  by_cases hne : ds = []
  · simp [hne]
  · have hlen : ¬ ds.length < 1 := by simpa using hne
    rw [if_neg hlen]
    simp [hne]

/-- An expiry option takes two words, the last ones. -/
theorem validateOption_time (n g : Bool) (pc : ParsedCmd) {w : Bytes} (rest : List Node)
    (hw : (getOptionType w).isTime = true) :
    validateOption ⟨parserState n g false, pc, .bulk w :: rest⟩ w =
      match rest with
      | [.bulk ds] =>
        some ⟨if ds ≠ [] ∧ ds.all isDigit = true then parserState n g true else stateError,
          Function.update (Function.update pc 1 (some (.bulk w))) 0 (some (.bulk ds)), []⟩
      | _ => none := by
  have h1 := (isSetOptionValid_parserState n g).2.2
  have hstate : parserState n g false ||| 1#8 <<< 1 ||| 1#8 <<< 0 = parserState n g true := by
    cases n <;> cases g <;> decide
  have h0 : isSetOptionValid (parserState n g false ||| 1#8 <<< 1) 0 = true := by
    cases n <;> cases g <;> decide
  have hv : validateOption ⟨parserState n g false, pc, .bulk w :: rest⟩ w =
      (let p := handleSetOptions ⟨parserState n g false, pc, .bulk w :: rest⟩ 1
       match p.gnode with
       | [.bulk lastNd] =>
         let p := handleSetOptions p 0
         some { p with state := validatePxExContent lastNd p.state }
       | _ => none) := by
    unfold validateOption
    generalize getOptionType w = t at hw
    rcases OptionType.isTime_iff.mp hw with rfl | rfl | rfl | rfl <;> rfl
  rw [hv]
  simp only [handleSetOptions, Fin.val_one, h1, Bool.not_true, Bool.false_eq_true, if_false]
  rcases rest with _ | ⟨n', _ | ⟨n'', rest⟩⟩
  · rfl
  · cases n' with
    | array s els => rfl
    | bulk ds =>
      simp only [Fin.val_zero, h0, Bool.not_true, Bool.false_eq_true, if_false, hstate,
        validatePxExContent_eq (parserState_pos n g true)]
  · cases n' with
    | array s els => rfl
    | bulk ds => rfl

theorem validateLoop_word (fuel : Nat) (n g : Bool) (pc : ParsedCmd) (w : Bytes)
    (rest : List Node) :
    validateLoop (fuel + 1) ⟨parserState n g false, pc, .bulk w :: rest⟩ =
      (validateOption ⟨parserState n g false, pc, .bulk w :: rest⟩ w).bind (validateLoop fuel) := by
  rw [validateLoop]
  exact if_neg (not_not_intro (parserState_pos n g false))

/-- The parser's result after an expiry option, if its time is valid. -/
def finishTime (n g : Bool) (pc : ParsedCmd) (w : Bytes) (rest : List Node) :
    Option (BitVec 8 × ParsedCmd) :=
  match rest with
  | [.bulk ds] =>
    if ds ≠ [] ∧ ds.all isDigit = true then
      some (parserState n g true,
        Function.update (Function.update pc 1 (some (.bulk w))) 0 (some (.bulk ds)))
    else none
  | _ => none

theorem finish_timeWord (fuel : Nat) (n g : Bool) (pc : ParsedCmd) {w : Bytes} (rest : List Node)
    (hw : (getOptionType w).isTime = true) :
    finish (validateLoop (fuel + 2) ⟨parserState n g false, pc, .bulk w :: rest⟩) =
      finishTime n g pc w rest := by
  rw [validateLoop_word, validateOption_time n g pc rest hw]
  unfold finishTime
  split
  · rename_i ds
    rw [Option.bind_some, validateLoop_nil rfl]
    by_cases hds : ds ≠ [] ∧ ds.all isDigit = true
    · have := parserState_pos n g true
      rw [if_pos hds, if_pos hds, finish]
      exact if_neg (by simp only; omega)
    · rw [if_neg hds, if_neg hds]
      rfl
  · rfl

/-- One pass of the loop at a word, and what the parser makes of the rest. -/
theorem finish_step (fuel : Nat) (n g : Bool) (pc : ParsedCmd) (w : Bytes) (rest : List Node) :
    finish (validateLoop (fuel + 2) ⟨parserState n g false, pc, .bulk w :: rest⟩) =
      match getOptionType w with
      | .nx | .xx =>
        if n || g then none else
        finish (validateLoop (fuel + 1)
          ⟨parserState true g false, Function.update pc 3 (some (.bulk w)), rest⟩)
      | .get =>
        if g then none else
        finish (validateLoop (fuel + 1)
          ⟨parserState n true false, Function.update pc 2 (some (.bulk w)), rest⟩)
      | .ex | .px | .exat | .pxat => finishTime n g pc w rest
      | .invalid => none := by
  obtain ⟨h3, h2, -⟩ := isSetOptionValid_parserState n g
  cases hg : getOptionType w with
  | nx | xx =>
    rw [validateLoop_word, validateOption, hg]
    simp only [Option.bind_some, handleSetOptions, show ((3 : Fin 6) : Nat) = 3 from rfl, h3]
    cases n <;> cases g <;> rfl
  | get =>
    rw [validateLoop_word, validateOption, hg]
    simp only [Option.bind_some, handleSetOptions, show ((2 : Fin 6) : Nat) = 2 from rfl, h2]
    cases n <;> cases g <;> rfl
  | ex | px | exat | pxat => exact finish_timeWord fuel n g pc rest (by rw [hg]; rfl)
  | invalid =>
    rw [validateLoop_word, validateOption, hg]
    rfl

/-- An array among the options is refused. -/
theorem finish_array (fuel : Nat) (n g : Bool) (pc : ParsedCmd) (s : Int) (els rest : List Node) :
    finish (validateLoop (fuel + 1) ⟨parserState n g false, pc, .array s els :: rest⟩) = none := by
  rw [validateLoop]
  simp only [not_not_intro (parserState_pos n g false), if_false]
  rfl

theorem finish_nil (fuel : Nat) (n g : Bool) (pc : ParsedCmd) :
    finish (validateLoop (fuel + 1) ⟨parserState n g false, pc, []⟩) =
      some (parserState n g false, pc) := by
  have := parserState_pos n g false
  rw [validateLoop_nil rfl, finish]
  exact if_neg (by simp only; omega)

/-! ## The whole loop -/

theorem finishTime_digits (n g : Bool) (pc : ParsedCmd) (w : Bytes) (ds : Digits) :
    finishTime n g pc w [.bulk ds] =
      some (parserState n g true,
        Function.update (Function.update pc 1 (some (.bulk w))) 0 (some (.bulk ds))) :=
  if_pos ds.2

/-- The parser takes an expiry option, if there is one, at the end. -/
theorem finish_timeArgs (fuel : Nat) (n g : Bool) (pc : ParsedCmd)
    (time : Option (TimeWord × Digits)) :
    finish (validateLoop (fuel + 2) ⟨parserState n g false, pc, timeArgs time⟩) =
      some (parserState n g time.isSome, setTime pc time) := by
  cases time with
  | none => exact finish_nil _ n g pc
  | some t =>
    obtain ⟨w, ds⟩ := t
    rw [timeArgs, finish_timeWord fuel n g pc _ w.2, finishTime_digits]
    rfl

/-- The parser takes GET before an expiry option. -/
theorem finish_getArgs (fuel : Nat) (n : Bool) (pc : ParsedCmd) (get : Option GetWord)
    (time : Option (TimeWord × Digits)) :
    finish (validateLoop (fuel + 3) ⟨parserState n false false, pc, getArgs get time⟩) =
      some (parserState n get.isSome time.isSome, setTime (setGet pc get) time) := by
  cases get with
  | none => exact finish_timeArgs (fuel + 1) n false pc time
  | some w =>
    rw [getArgs, finish_step, w.2]
    exact finish_timeArgs fuel n true _ time

/-- The parser takes NX or XX before the other options. -/
theorem finish_optionArgs (fuel : Nat) (pc : ParsedCmd) (nxxx : Option CondWord)
    (get : Option GetWord) (time : Option (TimeWord × Digits)) :
    finish (validateLoop (fuel + 4) ⟨parserState false false false, pc, optionArgs nxxx get time⟩) =
      some (parserState nxxx.isSome get.isSome time.isSome,
        setTime (setGet (setNxxx pc nxxx) get) time) := by
  cases nxxx with
  | none => exact finish_getArgs (fuel + 1) false pc get time
  | some w =>
    rw [optionArgs, finish_step]
    rcases w.2 with hw | hw
    · rw [hw]
      exact finish_getArgs fuel true _ get time
    · rw [hw]
      exact finish_getArgs fuel true _ get time

/-- What the parser accepts from a state is the words of the options that can still follow. -/
theorem args_of_finish {fuel : Nat} (n g : Bool) (pc : ParsedCmd) (rest : List Node)
    {r : BitVec 8 × ParsedCmd}
    (h : finish (validateLoop fuel ⟨parserState n g false, pc, rest⟩) = some r) :
    ∃ nxxx get time, ((n || g) = true → nxxx = none) ∧ (g = true → get = none) ∧
      rest = optionArgs nxxx get time := by
  induction fuel generalizing n g pc rest with
  | zero => cases h
  | succ fuel ih =>
    rcases rest with _ | ⟨_ | ⟨s, els⟩, rest⟩
    · exact ⟨none, none, none, fun _ => rfl, fun _ => rfl, rfl⟩
    · rename_i w
      -- a word takes a pass, and the end of the list another one
      cases fuel with
      | zero =>
        exfalso
        rw [validateLoop_word] at h
        cases hv : validateOption ⟨parserState n g false, pc, .bulk w :: rest⟩ w with
        | none =>
          rw [hv] at h
          cases h
        | some p =>
          rw [hv] at h
          cases h
      | succ fuel =>
        rw [finish_step] at h
        cases hg : getOptionType w with
        | nx | xx =>
          rw [hg] at h
          -- NX and XX come first, once
          cases hng : n || g with
          | true =>
            rw [hng] at h
            cases h
          | false =>
            rw [hng] at h
            obtain ⟨nxxx, get, time, hn, -, rfl⟩ := ih true g _ rest h
            obtain rfl := hn rfl
            refine ⟨some ⟨w, by simp [hg]⟩, get, time, nofun, ?_, rfl⟩
            intro hgt
            simp [hgt] at hng
        | get =>
          rw [hg] at h
          cases g with
          | true => cases h
          | false =>
            obtain ⟨nxxx, get, time, hn, hget, rfl⟩ := ih n true _ rest h
            obtain rfl := hn (by simp)
            obtain rfl := hget rfl
            exact ⟨none, some ⟨w, hg⟩, time, fun _ => rfl, nofun, rfl⟩
        | ex | px | exat | pxat =>
          rw [hg] at h
          simp only [finishTime] at h
          -- an expiry takes the digits behind it, and must be the last option
          split at h
          · rename_i ds
            by_cases hds : ds ≠ [] ∧ ds.all isDigit = true
            · exact ⟨none, none, some (⟨w, by rw [hg]; rfl⟩, ⟨ds, hds⟩), fun _ => rfl, fun _ => rfl,
                rfl⟩
            · rw [if_neg hds] at h
              cases h
          · cases h
        | invalid =>
          rw [hg] at h
          cases h
    · rw [finish_array] at h
      cases h

/-! ## The parser -/

theorem validateSetCmd_eq_finish {node : List Node} (h : node ≠ []) :
    validateSetCmd node = finish (validateLoop (node.length + 1) (setCmdStageA node)) := by
  rw [validateSetCmd, if_neg (by simpa using h)]
  cases validateLoop (node.length + 1) (setCmdStageA node) with
  | none => rfl
  | some p => rfl

theorem stateError_neg : ¬ stateError.toInt > 0 := by decide

/-- An option takes a node, or the node stays and the parser is in error. -/
theorem handleSetOptions_gnode (p : SetParser) (bitPos : Fin 6) :
    (handleSetOptions p bitPos).gnode.length < p.gnode.length ∨
      (handleSetOptions p bitPos).gnode = p.gnode ∧
      (handleSetOptions p bitPos).state = stateError := by
  unfold handleSetOptions
  split
  · exact .inr ⟨rfl, rfl⟩
  · rename_i hg
    split
    · exact .inr ⟨rfl, rfl⟩
    · left
      simp [hg]

/-- A pass of the loop takes a node or ends the loop. -/
theorem validateOption_gnode {p q : SetParser} {w : Bytes} (h : validateOption p w = some q) :
    q.gnode.length < p.gnode.length ∨ ¬ q.state.toInt > 0 := by
  have hopt (bitPos : Fin 6) (hq : some (handleSetOptions p bitPos) = some q) :
      q.gnode.length < p.gnode.length ∨ ¬ q.state.toInt > 0 := by
    obtain rfl := Option.some.inj hq
    rcases handleSetOptions_gnode p bitPos with hlt | ⟨-, hs⟩
    · exact .inl hlt
    · right
      rw [hs]
      exact stateError_neg
  have htime {lastNd : Bytes} (hg : (handleSetOptions p 1).gnode = [.bulk lastNd])
      (hq : some { handleSetOptions (handleSetOptions p 1) 0 with
        state := validatePxExContent lastNd (handleSetOptions (handleSetOptions p 1) 0).state } =
          some q) : q.gnode.length < p.gnode.length ∨ ¬ q.state.toInt > 0 := by
    obtain rfl := Option.some.inj hq
    rcases handleSetOptions_gnode (handleSetOptions p 1) 0 with hlt | ⟨-, hs⟩
    · left
      rcases handleSetOptions_gnode p 1 with hlt' | ⟨heq, -⟩
      · exact hlt.trans hlt'
      · rw [← heq]
        exact hlt
    · -- the second of the two nodes is not there
      right
      rw [hs, validatePxExContent, if_pos (by decide)]
      exact stateError_neg
  unfold validateOption at h
  cases hw : getOptionType w with
  | nx | xx =>
    rw [hw] at h
    exact hopt 3 h
  | get =>
    rw [hw] at h
    exact hopt 2 h
  | ex | px | exat | pxat =>
    rw [hw] at h
    simp only at h
    split at h
    · rename_i lastNd hg
      exact htime hg h
    · cases h
  | invalid =>
    rw [hw] at h
    cases h

/-- One pass more than there are nodes is enough: further ones change nothing. -/
theorem validateLoop_fuel {fuel : Nat} {p : SetParser} (more : Nat) (h0 : 0 < fuel)
    (h : p.gnode.length < fuel ∨ ¬ p.state.toInt > 0) :
    validateLoop (fuel + more) p = validateLoop fuel p := by
  induction fuel generalizing p with
  | zero => omega
  | succ fuel ih =>
    rw [show fuel + 1 + more = fuel + more + 1 by omega]
    unfold validateLoop
    cases hg : p.gnode with
    | nil => rfl
    | cons n next =>
      by_cases hs : ¬ p.state.toInt > 0
      · simp only [if_pos hs]
      · simp only [if_neg hs]
        cases n with
        | array s els => rfl
        | bulk w =>
          have hlen : (.bulk w :: next : List Node).length < fuel + 1 := hg ▸ h.resolve_right hs
          simp only
          cases hv : validateOption p w with
          | none => rfl
          | some q =>
            have hq : q.gnode.length < fuel ∨ ¬ q.state.toInt > 0 := by
              rcases validateOption_gnode hv with hlt | hs'
              · rw [hg] at hlt
                exact .inl (by omega)
              · exact .inr hs'
            exact ih (by simp at hlen; omega) hq

/-- The first two nodes are the key and the value. -/
theorem setCmdStageA_bulk (k v : Bytes) (rest : List Node) :
    setCmdStageA (.bulk k :: .bulk v :: rest) =
      ⟨parserState false false false, setKeyValue k v, rest⟩ := rfl

theorem validateSetCmd_args (c : SetCommand) :
    validateSetCmd c.args = some (c.state, c.parsedCmd) := by
  rw [validateSetCmd_eq_finish (by simp [SetCommand.args]),
    ← validateLoop_fuel 4 (by omega) (.inl ?_)]
  · exact finish_optionArgs _ (setKeyValue c.key c.value) c.nxxx c.get c.time
  · simp only [SetCommand.args, setCmdStageA_bulk, List.length_cons]
    omega

/-- The parser accepts exactly the argument lists of a `SetCommand`. -/
theorem validateSetCmd_eq_some (node : List Node) (r : BitVec 8 × ParsedCmd) :
    validateSetCmd node = some r ↔
      ∃ c : SetCommand, node = c.args ∧ r = (c.state, c.parsedCmd) := by
  constructor
  · intro h
    obtain ⟨c, rfl⟩ : ∃ c : SetCommand, node = c.args := by
      cases node with
      | nil => cases h
      | cons k node =>
        rw [validateSetCmd_eq_finish (by simp)] at h
        rcases k with k | ⟨s, els⟩
        · rcases node with _ | ⟨v | ⟨s, els⟩, rest⟩
          · cases h
          · obtain ⟨nxxx, get, time, -, -, rfl⟩ := args_of_finish false false _ rest h
            exact ⟨⟨k, v, nxxx, get, time⟩, rfl⟩
          · cases h
        · cases h
    rw [validateSetCmd_args] at h
    cases h
    exact ⟨c, rfl, rfl⟩
  · rintro ⟨c, rfl, rfl⟩
    exact validateSetCmd_args c

end RedisImpl
