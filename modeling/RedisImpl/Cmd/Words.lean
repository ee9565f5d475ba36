import RedisImpl.Cmd.Dispatch

/-!
# The words of the protocol

`find_redis_cmd` and `get_option_type` compare C strings, while the reader of the protocol and the
comparison of keys count bytes. A word is matched on its whole length, unless it is the name with a
NUL, and anything, behind it: `commandExact_iff` for the commands, `optionExact_iff` for the options
of SET, and `wordExact_iff` for both.
-/

namespace RedisImpl

/-- `parse_command` runs the command `cmd` on a request that begins with `w`. -/
def DispatchesTo (lc : Libc) (w : Bytes) (cmd : RedisCommand) : Prop :=
  ∀ now ra args size next,
    parseCommand lc now ra args [.array size (.bulk w :: next)] = runRedisCmd lc now ra args cmd next

/-- The slot of `parsed_cmd` for an option. -/
def OptionType.slot : OptionType → Fin 6
  | .nx | .xx => 3
  | .get => 2
  | _ => 1

/-- `validate_set_cmd` accepts a request with `w` for the option `t`. -/
def TakenFor (w : Bytes) (t : OptionType) : Prop :=
  getOptionType w = t ∧
    ∃ args state pc, validateSetCmd args = some (state, pc) ∧ pc t.slot = some (.bulk w)

/-- `parse_command` runs a command for the word only if the word is the name of the command; upper and
lower case do not differ. -/
def CommandExact (lc : Libc) (w : Bytes) : Prop :=
  ∀ name cmd, (name, cmd) ∈ commandTable → DispatchesTo lc w cmd → lower w = lower name

/-- `validate_set_cmd` takes the word for an option only if it is the option. -/
def OptionExact (w : Bytes) : Prop := ∀ t name, OptionType.name t = some name → TakenFor w t → w = name

/-- The word is matched on its whole length, by `parse_command` and by `validate_set_cmd`. -/
structure WordExact (lc : Libc) (w : Bytes) : Prop where
  command : CommandExact lc w
  option : OptionExact w

/-- The word is a command, in upper or lower case, with a NUL behind it. -/
def HiddenCommand (w : Bytes) : Prop :=
  ∃ name cmd c tail, (name, cmd) ∈ commandTable ∧ lower c = lower name ∧ w = c ++ 0 :: tail

/-- The word is an option with a NUL behind it. -/
def HiddenOption (w : Bytes) : Prop :=
  ∃ t name tail, OptionType.name t = some name ∧ w = name ++ 0 :: tail

/-- The word is a command or an option with a NUL behind it. -/
def Hidden (w : Bytes) : Prop := HiddenCommand w ∨ HiddenOption w

/-! ## Commands by what they do -/

section Answers

variable (lc : Libc)

/-- What a command answers on an empty store. -/
def answer (cmd : RedisCommand) (next : List Node) : Option (Option Bytes) :=
  (runRedisCmd lc ⟨0, 0⟩ .ok initialArgs cmd next).toOption.map Prod.fst

theorem answer_echo : answer lc .echo [.bulk [97]] = some (some (ascii "$1\r\na\r\n")) := rfl

theorem answer_get : answer lc .get [.bulk [97]] = some (some (ascii "$-1\r\n")) := rfl

theorem answer_set : answer lc .set [.bulk [97]] = some none ∧
    answer lc .set [.bulk [97], .bulk [98]] = some (some (ascii "+OK\r\n")) := ⟨rfl, rfl⟩

theorem answer_null (next : List Node) : answer lc .nullCmd next = some none := rfl

/-- CONFIG with a word that is not GET. -/
theorem answer_config (next : List Node) : answer lc .config (.bulk [97] :: next) = some none := by
  rw [answer, runRedisCmd, handleConfCmd_eq [97] next configured_initialArgs,
    if_neg (by decide)]
  rfl

theorem answer_configGet :
    answer lc .config [.bulk (ascii "GET"), .bulk (ascii "dir")] ≠ some none := by
  obtain ⟨es, hget, -⟩ := configured_initialArgs.handleConfGet_eq lc
    (List.cons_ne_nil (Node.bulk (ascii "dir")) [])
  rw [answer, runRedisCmd, handleConfCmd_eq (ascii "GET") _ configured_initialArgs,
    if_pos (by decide), hget]
  simp [Except.map, Except.toOption]

/-- Different commands answer some request differently. -/
theorem answer_injective {c d : RedisCommand} (h : ∀ next, answer lc c next = answer lc d next) :
    c = d := by
  have h1 := h [.bulk [97]]
  have h2 := h [.bulk [97], .bulk [98]]
  have h3 := h [.bulk (ascii "GET"), .bulk (ascii "dir")]
  have hs := answer_set lc
  have hg := answer_configGet lc
  cases c <;> cases d
  all_goals first
    | rfl
    | (simp only [answer_echo, answer_get, answer_null, answer_config, hs] at h1 h2
       simp [ascii] at h1 h2)
    | (rw [answer_null] at h3
       first
         | exact absurd h3 hg
         | exact absurd h3.symm hg)

theorem dispatchesTo_iff (w : Bytes) (cmd : RedisCommand) :
    DispatchesTo lc w cmd ↔ findRedisCmd lc w = cmd := by
  have hrun : ∀ now ra args size next,
      parseCommand lc now ra args [.array size (.bulk w :: next)] =
        runRedisCmd lc now ra args (findRedisCmd lc w) next := by
    intro now ra args size next
    rw [parseCommand_eq]
    rfl
  constructor
  · intro h
    apply answer_injective lc
    intro next
    rw [answer, answer, ← h ⟨0, 0⟩ .ok initialArgs 0 next, hrun]
  · rintro rfl
    exact hrun

end Answers

/-! ## Words and C strings -/

/-- A command is found by its name, compared as a C string. -/
theorem findRedisCmd_iff (lc : Libc) (w : Bytes) {name : Bytes} {cmd : RedisCommand}
    (hmem : (name, cmd) ∈ commandTable) :
    findRedisCmd lc w = cmd ↔ lower (cstr w) = lower name := by
  have hdistinct : ∀ i ∈ commandTable, ∀ j ∈ commandTable, lower i.1 = lower j.1 → i = j := by
    decide
  rw [findRedisCmd, find_scanned lc commandTable (by simp [commandTable, ascii, isSpecial])]
  constructor
  · intro h
    split at h
    · rename_i item hfind
      have hname : lower item.1 = lower (cstr w) := by simpa using List.find?_some hfind
      have hitem : ∀ i ∈ commandTable, ∀ j ∈ commandTable, i.2 = j.2 → i = j := by decide
      rw [hitem item (List.mem_of_find?_eq_some hfind) (name, cmd) hmem h] at hname
      exact hname.symm
    · subst h
      simp [commandTable] at hmem
  · intro h
    cases hfind : commandTable.find? fun item => decide (lower item.1 = lower (cstr w)) with
    | none =>
      have := List.find?_eq_none.mp hfind (name, cmd) hmem
      simp [h] at this
    | some item =>
      have hname : lower item.1 = lower (cstr w) := by simpa using List.find?_some hfind
      rw [hdistinct item (List.mem_of_find?_eq_some hfind) (name, cmd) hmem (hname.trans h)]

/-- The requests that `validate_set_cmd` accepts with an option. -/
theorem takenFor_iff (w : Bytes) {t : OptionType} {name : Bytes} (hn : t.name = some name) :
    TakenFor w t ↔ cstr w = name := by
  rw [TakenFor, getOptionType_eq hn]
  refine and_iff_left_of_imp fun hw => ?_
  have ht : getOptionType w = t := (getOptionType_eq hn w).mpr hw
  obtain ⟨c, hc⟩ : ∃ c : SetCommand, c.parsedCmd t.slot = some (.bulk w) := by
    cases t with
    | invalid => cases hn
    | nx => exact ⟨⟨[97], [98], some ⟨w, .inl ht⟩, none, none⟩, rfl⟩
    | xx => exact ⟨⟨[97], [98], some ⟨w, .inr ht⟩, none, none⟩, rfl⟩
    | get => exact ⟨⟨[97], [98], none, some ⟨w, ht⟩, none⟩, rfl⟩
    | ex | px | exat | pxat =>
      exact ⟨⟨[97], [98], none, none, some (⟨w, by rw [ht]; rfl⟩, ⟨[49], by decide⟩)⟩, rfl⟩
  exact ⟨c.args, c.state, c.parsedCmd, (validateSetCmd_eq_some _ _).mpr ⟨c, rfl, rfl⟩, hc⟩

theorem zero_notMem_commandTable {name : Bytes} {cmd : RedisCommand}
    (h : (name, cmd) ∈ commandTable) : 0 ∉ lower name := by
  have hall : ∀ item ∈ commandTable, 0 ∉ lower item.1 := by decide
  exact hall _ h

theorem zero_notMem_optionName {t : OptionType} {name : Bytes} (h : t.name = some name) :
    0 ∉ name := by
  cases t with
  | invalid => cases h
  | nx | xx | get | ex | px | exat | pxat =>
    rw [← Option.some.inj h]
    decide

/-- A word is matched as a command on its whole length exactly if it is not a command with a NUL
behind it. -/
theorem commandExact_iff (lc : Libc) (w : Bytes) : CommandExact lc w ↔ ¬ HiddenCommand w := by
  constructor
  · rintro hw ⟨name, cmd, c, tail, hmem, hc, rfl⟩
    have hz : 0 ∉ c := by
      intro h0
      have hl : 0 ∈ lower c := List.mem_map.mpr ⟨0, h0, rfl⟩
      rw [hc] at hl
      exact zero_notMem_commandTable hmem hl
    have hd : DispatchesTo lc (c ++ 0 :: tail) cmd := by
      rw [dispatchesTo_iff, findRedisCmd_iff lc _ hmem, cstr_append_zero hz, hc]
    have heq := hw name cmd hmem hd
    rw [← hc] at heq
    have hlen := congrArg List.length heq
    simp [lower] at hlen
  · intro h name cmd hmem hd
    rw [dispatchesTo_iff, findRedisCmd_iff lc w hmem] at hd
    rcases eq_cstr_or w with hw | ⟨tail, hw⟩
    · rw [hw, hd]
    · exact absurd ⟨name, cmd, cstr w, tail, hmem, hd, hw⟩ h

/-- A word is matched as an option on its whole length exactly if it is not an option with a NUL
behind it. -/
theorem optionExact_iff (w : Bytes) : OptionExact w ↔ ¬ HiddenOption w := by
  constructor
  · rintro hw ⟨t, name, tail, hn, rfl⟩
    have ht : TakenFor (name ++ 0 :: tail) t := by
      rw [takenFor_iff _ hn, cstr_append_zero (zero_notMem_optionName hn)]
    have heq := hw t name hn ht
    simp at heq
  · intro h t name hn ht
    rw [takenFor_iff w hn] at ht
    rcases eq_cstr_or w with hw | ⟨tail, hw⟩
    · rw [hw, ht]
    · exact absurd ⟨t, name, tail, hn, ht ▸ hw⟩ h

/-- A word is matched on its whole length exactly if it is not a command or an option with a NUL
behind it. -/
theorem wordExact_iff (lc : Libc) (w : Bytes) : WordExact lc w ↔ ¬ Hidden w := by
  rw [Hidden, not_or, ← commandExact_iff lc, ← optionExact_iff]
  exact ⟨fun hw => ⟨hw.command, hw.option⟩, fun h => ⟨h.1, h.2⟩⟩

/-- `GET`, a NUL and `x` is run as GET, and `NX` with a NUL is accepted as NX. -/
theorem getNul_not_wordExact :
    ¬ WordExact .exact (ascii "GET" ++ [0, 120]) ∧ ¬ WordExact .exact (ascii "NX" ++ [0]) ∧
      (∀ next, parseCommand .exact ⟨0, 0⟩ .ok initialArgs
          [.array 2 (.bulk (ascii "GET" ++ [0, 120]) :: next)] =
        parseCommand .exact ⟨0, 0⟩ .ok initialArgs [.array 2 (.bulk (ascii "GET") :: next)]) ∧
      (validateSetCmd [.bulk [97], .bulk [98], .bulk (ascii "NX" ++ [0])]).map Prod.fst =
        (validateSetCmd [.bulk [97], .bulk [98], .bulk (ascii "NX")]).map Prod.fst := by
  refine ⟨fun h => ?_, fun h => ?_, fun next => ?_, by decide⟩
  · have heq := h.command (ascii "GET") .get (by decide) ((dispatchesTo_iff _ _ _).mpr (by decide))
    revert heq
    decide
  · have heq := h.option .nx (ascii "NX") rfl ((takenFor_iff _ rfl).mpr (by decide))
    revert heq
    decide
  · rw [parseCommand_eq, parseCommand_eq]
    rfl

end RedisImpl
