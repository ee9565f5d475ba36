import RedisImpl.Cmd.Reference

/-!
# The validator and the executors of SET

`execute_set_cmd` has no executor for two of the states in which `validate_set_cmd` can end,
`SET_NXXX_EXPX` and `SET_GET_EXPX`: an accepted request is carried out exactly if it does not have
an expiry option together with NX, XX or GET (`executed_iff`).
-/

namespace RedisImpl

/-- A node with the word of an expiry option. -/
def IsTimeWord (n : Node) : Prop := ∃ w, n = .bulk w ∧ (getOptionType w).isTime = true

/-- A node with the word NX, XX or GET. -/
def IsOtherWord (n : Node) : Prop :=
  ∃ w, n = .bulk w ∧ (getOptionType w = .nx ∨ getOptionType w = .xx ∨ getOptionType w = .get)

/-- The options of the request have an expiry option and another one. -/
def MixesTime (args : List Node) : Prop :=
  (∃ n ∈ args.drop 2, IsTimeWord n) ∧ ∃ n ∈ args.drop 2, IsOtherWord n

/-- The replies of SET: `+OK`, nil, a bulk string. -/
def IsReply (r : Bytes) : Prop := r = ok ∨ r = nil ∨ ∃ v, r = bulkString v

/-- The executor carries the request out on the store `sm`, which holds the map `m`, and replies. -/
def Executed (now : Timespec) (args : List Node) (state : BitVec 8) (parsedCmd : ParsedCmd)
    (sm : Store) (m : RefMap) : Prop :=
  ∃ (c : SetCommand) (r : Bytes) (sm' : Store), args = c.args ∧
    executeSetCmd now .ok state parsedCmd sm = (some r, sm') ∧
    IsReply r ∧ r = (m.set now c).1 ∧ Holds sm' (m.set now c).2

theorem isReply_reply (c : SetCommand) (old : Option Entry) : IsReply (c.reply old) := by
  unfold SetCommand.reply
  split
  · cases old with
    | none => exact .inr (.inl rfl)
    | some e => exact .inr (.inr ⟨e.value, rfl⟩)
  · split
    · exact .inl rfl
    · exact .inr (.inl rfl)

/-- A string of digits is no option word. -/
theorem getOptionType_digits (ds : Digits) : getOptionType ds = .invalid := by
  obtain ⟨ds, -, hall⟩ := ds
  have hcstr : cstr ds = ds := cstr_eq_self (zero_notMem_digits (List.all_eq_true.mp hall))
  cases ht : getOptionType ds with
  | invalid => rfl
  | nx | xx | get | ex | px | exat | pxat =>
    have hword := (getOptionType_eq rfl ds).mp ht
    rw [← hcstr, hword] at hall
    cases hall

@[simp] theorem isTimeWord_bulk (w : Bytes) :
    IsTimeWord (.bulk w) ↔ (getOptionType w).isTime = true := by
  simp [IsTimeWord]

@[simp] theorem isOtherWord_bulk (w : Bytes) :
    IsOtherWord (.bulk w) ↔
      getOptionType w = .nx ∨ getOptionType w = .xx ∨ getOptionType w = .get := by
  simp [IsOtherWord]

theorem timeWord_timeArgs (time : Option (TimeWord × Digits)) :
    (∃ n ∈ timeArgs time, IsTimeWord n) ↔ time.isSome := by
  cases time with
  | none => simp [timeArgs]
  | some t => simp [timeArgs, t.1.2]

/-- The value of an expiry option is not one of the other words, and its name neither. -/
theorem otherWord_timeArgs (time : Option (TimeWord × Digits)) :
    ¬ ∃ n ∈ timeArgs time, IsOtherWord n := by
  cases time with
  | none => simp [timeArgs]
  | some t =>
    have hw := t.1.2
    have hd := getOptionType_digits t.2
    simp only [timeArgs, List.mem_cons, List.not_mem_nil, or_false, exists_eq_or_imp,
      exists_eq_left, isOtherWord_bulk, hd]
    rintro ((h | h | h) | h)
    · simp [h, OptionType.isTime] at hw
    · simp [h, OptionType.isTime] at hw
    · simp [h, OptionType.isTime] at hw
    · simp at h

theorem isTime_get (g : GetWord) : (getOptionType g).isTime = false := by
  rw [g.2]
  rfl

theorem isTime_cond (w : CondWord) : (getOptionType w).isTime = false := by
  rcases w.2 with h | h
  · rw [h]
    rfl
  · rw [h]
    rfl

/-- An accepted request mixes an expiry option with another one if it has both. -/
theorem mixesTime_args (c : SetCommand) : MixesTime c.args ↔ ¬ c.Supported := by
  have htime := timeWord_timeArgs c.time
  have hother := otherWord_timeArgs c.time
  have hdrop : c.args.drop 2 = optionArgs c.nxxx c.get c.time := rfl
  rw [MixesTime, hdrop, SetCommand.Supported]
  cases c.nxxx with
  | none =>
    cases c.get with
    | none => simp [optionArgs, getArgs, htime, hother]
    | some g =>
      have hg : getOptionType g = .nx ∨ getOptionType g = .xx ∨ getOptionType g = .get :=
        .inr (.inr g.2)
      simp [optionArgs, getArgs, htime, isTime_get, hg, Option.isSome_iff_ne_none]
  | some w =>
    have hw : getOptionType w = .nx ∨ getOptionType w = .xx ∨ getOptionType w = .get :=
      w.2.imp_right .inl
    cases c.get with
    | none => simp [optionArgs, getArgs, htime, isTime_cond, hw, Option.isSome_iff_ne_none]
    | some g =>
      simp [optionArgs, getArgs, htime, isTime_cond, isTime_get, hw, Option.isSome_iff_ne_none]

/-- An accepted request with a non-empty key and value is carried out, on any store with room,
exactly if no expiry option stands together with another option. -/
theorem executed_iff {args : List Node} {state : BitVec 8} {parsedCmd : ParsedCmd}
    (hacc : validateSetCmd args = some (state, parsedCmd)) (hk : parsedCmd.content 5 ≠ some [])
    (hv : parsedCmd.content 4 ≠ some []) (now : Timespec) {sm : Store} {m : RefMap}
    (h : Holds sm m) (hr : Room sm) :
    Executed now args state parsedCmd sm m ↔ ¬ MixesTime args := by
  obtain ⟨c, rfl, heq⟩ := (validateSetCmd_eq_some args _).mp hacc
  cases heq
  have hk' : c.key ≠ [] := by simpa [ParsedCmd.content] using hk
  have hv' : c.value ≠ [] := by simpa [ParsedCmd.content] using hv
  rw [mixesTime_args, not_not]
  constructor
  · rintro ⟨-, r, sm', -, hx, -⟩
    by_contra hc
    rw [← handleSetCmd_args, handleSetCmd_unsupported now .ok hc] at hx
    cases hx
  · intro hc
    obtain ⟨sm', h', hx⟩ := h.handleSetCmd_supported hr now hc hk' hv'
    rw [handleSetCmd_args] at hx
    exact ⟨c, _, sm', rfl, hx, isReply_reply c _, rfl, h'⟩

/-- `SET k v NX EX 10`. -/
def nxEx : SetCommand where
  key := ascii "k"
  value := ascii "v"
  nxxx := some ⟨ascii "NX", by decide⟩
  get := none
  time := some (⟨ascii "EX", by decide⟩, ⟨ascii "10", by decide⟩)

/-- `SET k v NX EX 10` is accepted, and `execute_set_cmd` returns NULL for it. -/
theorem nxEx_not_executed :
    nxEx.args = (["k", "v", "NX", "EX", "10"].map fun s => .bulk (ascii s)) ∧
    validateSetCmd nxEx.args = some (nxEx.state, nxEx.parsedCmd) ∧
    nxEx.parsedCmd.content 5 = some (ascii "k") ∧ nxEx.parsedCmd.content 4 = some (ascii "v") ∧
    Holds SimpleMap.create (fun _ => none) ∧ Room SimpleMap.create ∧
    executeSetCmd ⟨0, 0⟩ .ok nxEx.state nxEx.parsedCmd SimpleMap.create =
      (none, SimpleMap.create) ∧
    ¬ Executed ⟨0, 0⟩ nxEx.args nxEx.state nxEx.parsedCmd SimpleMap.create (fun _ => none) := by
  have hx : executeSetCmd ⟨0, 0⟩ .ok nxEx.state nxEx.parsedCmd SimpleMap.create =
      (none, SimpleMap.create) := executeSetCmd_eq _ _ (by decide) (by decide) _
  refine ⟨rfl, rfl, rfl, rfl, holds_create, by unfold Room; decide, hx, ?_⟩
  rintro ⟨c, r, sm', -, hx', -⟩
  rw [hx] at hx'
  cases hx'

/-- `SET k v NX GET`. -/
def nxGet : SetCommand where
  key := ascii "k"
  value := ascii "v"
  nxxx := some ⟨ascii "NX", by decide⟩
  get := some ⟨ascii "GET", by decide⟩
  time := none

theorem executed_iff_nxGet :
    Executed ⟨0, 0⟩ nxGet.args nxGet.state nxGet.parsedCmd SimpleMap.create (fun _ => none) ↔
      ¬ MixesTime nxGet.args :=
  executed_iff (validateSetCmd_args nxGet) (by decide) (by decide) ⟨0, 0⟩ holds_create
    (by unfold Room; decide)

end RedisImpl
