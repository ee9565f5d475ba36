import RedisImpl.Cmd.Reference

/-!
# The grammar of SET

`validateSetCmd_grammar`: the parser accepts `key value [NX|XX] [GET] [EX|PX|EXAT|PXAT digits]` and
nothing else, its state has the bits of the parts that are present, its array points to their nodes,
and its loop ends. The option words are compared as C strings (`getOptionType_eq`).
-/

namespace RedisImpl

/-- One pass of the loop of `validate_set_cmd` that goes on to the next one. -/
def Pass (p q : SetParser) : Prop :=
  ∃ option next, p.gnode = .bulk option :: next ∧ p.state.toInt > 0 ∧ validateOption p option = some q

/-- The loop ends: there is no endless sequence of passes. -/
theorem not_endless (f : Nat → SetParser) : ¬ ∀ i, Pass (f i) (f (i + 1)) := by
  intro h
  have hlt : ∀ i, (f (i + 1)).gnode.length < (f i).gnode.length := by
    intro i
    obtain ⟨w, next, -, -, hv⟩ := h i
    obtain ⟨-, -, -, hpos, -⟩ := h (i + 1)
    exact (validateOption_gnode hv).resolve_right (not_not_intro hpos)
  have hle : ∀ i, (f i).gnode.length + i ≤ (f 0).gnode.length := by
    intro i
    induction i with
    | zero => exact Nat.le_refl _
    | succ i ih =>
      have := hlt i
      omega
  have := hle ((f 0).gnode.length + 1)
  omega

/-- What is in the slots of `parsed_cmd` for a valid command. -/
theorem SetCommand.parsedCmd_slots (c : SetCommand) :
    c.parsedCmd 5 = some (.bulk c.key) ∧ c.parsedCmd 4 = some (.bulk c.value) ∧
      c.parsedCmd 3 = c.nxxx.map (fun w => .bulk w.1) ∧ c.parsedCmd 2 = c.get.map (fun w => .bulk w.1) ∧
      c.parsedCmd 1 = c.time.map (fun t => .bulk t.1.1) ∧
      c.parsedCmd 0 = c.time.map (fun t => .bulk t.2.1) :=
  ⟨c.parsedCmd_key, c.parsedCmd_value, c.parsedCmd_nxxx, c.parsedCmd_get, c.parsedCmd_timeWord,
    c.parsedCmd_timeDigits⟩

/-- An array with these slots. -/
theorem SetCommand.parsedCmd_ext {c : SetCommand} {pc : ParsedCmd}
    (h5 : pc 5 = some (.bulk c.key)) (h4 : pc 4 = some (.bulk c.value))
    (h3 : pc 3 = c.nxxx.map (fun w => .bulk w.1)) (h2 : pc 2 = c.get.map (fun w => .bulk w.1))
    (h1 : pc 1 = c.time.map (fun t => .bulk t.1.1)) (h0 : pc 0 = c.time.map (fun t => .bulk t.2.1)) :
    pc = c.parsedCmd := by
  obtain ⟨s5, s4, s3, s2, s1, s0⟩ := c.parsedCmd_slots
  funext i
  match i with
  | 0 => rw [h0, s0]
  | 1 => rw [h1, s1]
  | 2 => rw [h2, s2]
  | 3 => rw [h3, s3]
  | 4 => rw [h4, s4]
  | 5 => rw [h5, s5]

/-- `validate_set_cmd` accepts exactly the argument lists of SET; on acceptance bit 3, bit 2, and the
bits 1 and 0 of the state tell which parts are present, and the slots of the array hold their nodes.
The option words are compared as C strings, and the loop ends on every list. -/
theorem validateSetCmd_grammar (node : List Node) :
    (∀ state pc, validateSetCmd node = some (state, pc) ↔ ∃ c : SetCommand, node = c.args ∧
      state = 0x70#8 ||| (if c.nxxx.isSome then 0b1000#8 else 0) |||
        (if c.get.isSome then 0b100#8 else 0) ||| (if c.time.isSome then 0b11#8 else 0) ∧
      pc 5 = some (.bulk c.key) ∧ pc 4 = some (.bulk c.value) ∧
      pc 3 = c.nxxx.map (fun w => .bulk w.1) ∧ pc 2 = c.get.map (fun w => .bulk w.1) ∧
      pc 1 = c.time.map (fun t => .bulk t.1.1) ∧ pc 0 = c.time.map (fun t => .bulk t.2.1)) ∧
    (∀ (t : OptionType) (name w : Bytes), t.name = some name →
      (getOptionType w = t ↔ cstr w = name)) ∧
    ∀ f : Nat → SetParser, f 0 = setCmdStageA node → ¬ ∀ i, Pass (f i) (f (i + 1)) := by
  refine ⟨fun state pc => ?_, fun t name w hn => getOptionType_eq hn w, fun f _ => not_endless f⟩
  rw [validateSetCmd_eq_some]
  constructor
  · rintro ⟨c, hargs, hr⟩
    cases hr
    exact ⟨c, hargs, rfl, c.parsedCmd_slots⟩
  · rintro ⟨c, hargs, hstate, h5, h4, h3, h2, h1, h0⟩
    refine ⟨c, hargs, ?_⟩
    rw [SetCommand.parsedCmd_ext h5 h4 h3 h2 h1 h0, hstate]
    rfl

end RedisImpl
