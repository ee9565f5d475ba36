import RedisImpl.App.Loop
import RedisImpl.Cmd.Replies

/-!
# What a client gets

The handlers build their replies with lengths, and `app_code` sends them as C strings.

* `flatMap_sentString_ne`: what is sent for replies is never the replies.
* `nothing_survives`: after a SET, the bytes that answer the GET are not the value as a bulk string.
-/

namespace RedisImpl

open Node SimpleMap

/-! ## Strings that end in a NUL -/

/-- It starts and ends with other bytes than NUL. -/
def Framed (r : Bytes) : Prop := cstr r ≠ [] ∧ ∃ x d, r = x ++ [d] ∧ d ≠ 0

/-- The replies that the handlers build: a text, or the buffer that nothing was copied to. -/
def Built (r : Bytes) : Prop := r = zeros ∨ Framed r

/-- The replies one after the other, with more NULs at the end, are not what is sent for them, but
for the one NUL at the end of a single reply. -/
theorem flatMap_sentString_ne_append {rs : List Bytes} (h : ∀ r ∈ rs, Built r) {j : Nat} (hj : j ≠ 1)
    (h0 : rs ≠ [] ∨ j ≠ 0) : rs.flatMap sentString ≠ rs.flatten ++ List.replicate j 0 := by
  induction rs using List.reverseRecOn generalizing j with
  | nil =>
    intro heq
    have hlen := congrArg List.length heq
    simp only [List.flatMap_nil, List.flatten_nil, List.nil_append, List.length_replicate,
      List.length_nil] at hlen
    exact h0.elim (fun hne => hne rfl) fun hne => hne hlen.symm
  | append_singleton rs r ih =>
    intro heq
    rw [List.flatMap_append, List.flatMap_singleton, List.flatten_append, List.flatten_singleton,
      sentString, ← List.append_assoc, List.append_assoc rs.flatten] at heq
    rcases h r (by simp) with rfl | ⟨hne, x, d, rfl, hd⟩
    · -- a zeroed buffer: one NUL is sent of its five
      have hz : zeros ++ List.replicate j (0 : UInt8) = List.replicate (4 + j) 0 ++ [0] := by
        rw [zeros, List.replicate_append_replicate, ← List.replicate_succ']
        congr 1
        rw [show nil.length = 5 from rfl]
        omega
      have hc : cstr zeros = [] := rfl
      rw [hz, hc, List.append_nil, ← List.append_assoc] at heq
      exact ih (fun r hr => h r (by simp [hr])) (by omega) (.inr (by omega))
        (List.append_cancel_right heq)
    · rw [← List.append_assoc] at heq
      rcases Nat.lt_or_ge 0 j with hpos | hzero
      · -- two NULs at the end, and only one that was sent
        obtain ⟨i, rfl⟩ : ∃ i, j = i + 1 + 1 := ⟨j - 2, by omega⟩
        obtain ⟨y, e, hye⟩ := (List.eq_nil_or_concat (cstr (x ++ [d]))).resolve_left hne
        rw [List.replicate_succ', ← List.append_assoc] at heq
        have hcut := List.append_cancel_right heq
        rw [hye, List.concat_eq_append, List.replicate_succ', ← List.append_assoc,
          ← List.append_assoc] at hcut
        have he : [e] = [0] := (List.append_inj' hcut rfl).2
        refine zero_notMem_cstr (x ++ [d]) ?_
        rw [hye, (List.cons.inj he).1]
        simp
      · obtain rfl : j = 0 := by omega
        rw [List.replicate_zero, List.append_nil, ← List.append_assoc] at heq
        have he : [0] = [d] := (List.append_inj' heq rfl).2
        exact hd (List.cons.inj he).1.symm

/-- What is sent is not the replies. -/
theorem flatMap_sentString_ne {rs : List Bytes} (h : ∀ r ∈ rs, Built r) (hne : rs ≠ []) :
    rs.flatMap sentString ≠ rs.flatten := by
  have := flatMap_sentString_ne_append h (j := 0) (by decide) (.inl hne)
  rwa [List.replicate_zero, List.append_nil] at this

/-! ## The replies of the handlers -/

mutual

theorem encode_concat (v : Resp) : ∃ x, v.encode = x ++ [10] := by
  cases v with
  | simple s hs => exact ⟨43 :: (s ++ [13]), by simp [Resp.encode]⟩
  | bulk content => exact ⟨36 :: (decimal content.length ++ 13 :: 10 :: (content ++ [13])), by simp [Resp.encode]⟩
  | nil => exact ⟨[36, 45, 49, 13], rfl⟩
  | array els =>
    rcases encodeList_concat els with h | ⟨x, h⟩
    · exact ⟨42 :: (decimal els.length ++ [13]), by simp [Resp.encode, h]⟩
    · exact ⟨42 :: (decimal els.length ++ 13 :: 10 :: x), by simp [Resp.encode, h]⟩

theorem encodeList_concat (vs : List Resp) :
    Resp.encodeList vs = [] ∨ ∃ x, Resp.encodeList vs = x ++ [10] := by
  cases vs with
  | nil => exact .inl rfl
  | cons v vs =>
    right
    rcases encodeList_concat vs with h | ⟨x, h⟩
    · obtain ⟨y, hy⟩ := encode_concat v
      exact ⟨y, by rw [Resp.encodeList, h, hy, List.append_nil]⟩
    · exact ⟨v.encode ++ x, by rw [Resp.encodeList, h, List.append_assoc]⟩

end

theorem framed_encode (v : Resp) : Framed v.encode := by
  obtain ⟨x, hx⟩ := encode_concat v
  refine ⟨?_, x, 10, hx, by decide⟩
  cases v <;> simp [Resp.encode, cstr]

theorem framed_of_oneValue {r : Bytes} (h : Resp.OneValue r) : Framed r := by
  obtain ⟨v, rfl⟩ := Resp.oneValue_iff.mp h
  exact framed_encode v

/-- A text without NUL. -/
theorem framed_of_notMem {r : Bytes} (hz : 0 ∉ r) (hne : r ≠ []) : Framed r := by
  obtain ⟨x, d, rfl⟩ := (List.eq_nil_or_concat r).resolve_left hne
  rw [List.concat_eq_append] at hz hne ⊢
  refine ⟨by rwa [cstr_eq_self hz], x, d, rfl, ?_⟩
  rintro rfl
  exact hz (by simp)

theorem framed_errorMsg : Framed errorMsg := framed_of_notMem (by decide) (by decide)

section Handlers

variable {lc : Libc} {now : Timespec} {ra : Realloc} {args args' : CmdParserArgs}
  {next : List Node} {r : Bytes}

theorem runRedisCmd_built (h : args.Sound) (hr : RequestList next) {cmd : RedisCommand}
    (hrun : runRedisCmd lc now ra args cmd next = .ok (some r, args')) : Built r := by
  cases cmd with
  | nullCmd => cases hrun
  | echo =>
    obtain ⟨hz, hne⟩ := handleEchoCmd_text hr (map_pair_eq_ok hrun).1
    exact .inr (framed_of_notMem hz hne)
  | set =>
    cases hset : handleSetCmd now ra next args.sm with
    | mk rtn sm =>
      simp only [runRedisCmd, hset] at hrun
      cases hrun
      rcases handleSetCmd_reply h.sm (by rw [hset]) with hone | hs
      · exact .inr (framed_of_oneValue hone)
      · have hz := hs.reply h.sm now
        rw [hset] at hz
        cases hz
        exact .inl rfl
  | get =>
    cases hget : handleGetCmd lc now next args.sm with
    | mk rtn sm =>
      simp only [runRedisCmd, hget] at hrun
      cases hrun
      have hreply := (handleGetCmd_effect lc now next args.sm).isReply (by rw [hget])
      exact .inr (framed_of_oneValue hreply.oneValue)
  | config =>
    exact .inr (framed_of_oneValue (handleConfCmd_oneValue h.configDict (map_pair_eq_ok hrun).1).1)

theorem parseCommand_built (h : args.Sound) {node : List Node} (hr : RequestList node)
    (hrun : parseCommand lc now ra args node = .ok (some r, args')) : Built r := by
  rw [parseCommand_eq] at hrun
  cases hp : firstBulk node 0 with
  | none =>
    rw [hp] at hrun
    cases hrun
  | some place =>
    obtain ⟨depth, name, next⟩ := place
    rw [hp, runAt_some] at hrun
    split at hrun
    · exact runRedisCmd_built h (firstBulk_request hr hp) hrun
    · cases hrun

end Handlers

/-! ## The calls of a connection -/

section Session

variable {lc : Libc} {s s' : Session} {r : Option Bytes}

theorem Session.sound_parse (hs : s.args.Sound) {node : List Node}
    (h : s.parse lc node = .ok (r, s')) : s'.args.Sound := by
  obtain ⟨args', hp, rfl⟩ := Session.parse_eq_ok h
  exact requests_sound.step node s.args args' hs ⟨lc, _, _, r, hp⟩

/-- Every reply to a sequence of requests is built by a handler, or it is the message. -/
theorem answers_built {ts : List Node} (ht : RequestList ts) (hs : s.args.Sound)
    {rs : List (Option Bytes)} (h : answers (Session.parse lc) ts s = .ok (rs, s')) :
    rs.length = ts.length ∧ ∀ r ∈ rs.map (·.getD errorMsg), Built r := by
  induction ts generalizing s rs with
  | nil =>
    cases h
    exact ⟨rfl, by simp⟩
  | cons t ts ih =>
    obtain ⟨hr, hnext⟩ := ht
    unfold answers at h
    cases hp : s.parse lc [t] with
    | error e =>
      rw [hp] at h
      cases h
    | ok p =>
      obtain ⟨rtn, s₁⟩ := p
      cases ha : answers (Session.parse lc) ts s₁ with
      | error e =>
        simp only [hp, ha, bind, Except.bind] at h
        cases h
      | ok q =>
        obtain ⟨rs₁, s₂⟩ := q
        simp only [hp, ha, bind, Except.bind] at h
        cases h
        obtain ⟨hlen, hbuilt⟩ := ih hnext (Session.sound_parse hs hp) ha
        refine ⟨by rw [List.length_cons, hlen, List.length_cons], ?_⟩
        intro r hmem
        rw [List.map_cons, List.mem_cons] at hmem
        rcases hmem with rfl | hmem
        · obtain ⟨args', hrun, -⟩ := Session.parse_eq_ok hp
          cases rtn with
          | none => exact .inr framed_errorMsg
          | some r => exact parseCommand_built hs (show RequestList [t] from ⟨hr, trivial⟩) hrun
        · exact hbuilt r hmem

/-! ## SET, then GET -/

/-- `SET k v`. -/
def setRequest (k v : Bytes) : Node := .array 3 [.bulk (ascii "SET"), .bulk k, .bulk v]

/-- `GET k`. -/
def getRequest (k : Bytes) : Node := .array 2 [.bulk (ascii "GET"), .bulk k]

theorem parse_setRequest (k v : Bytes) : s.parse lc [setRequest k v] =
    .ok ((handleSetCmd (s.clock s.time) (s.realloc s.time) [.bulk k, .bulk v] s.args.sm).1,
      s.after (handleSetCmd (s.clock s.time) (s.realloc s.time) [.bulk k, .bulk v] s.args.sm).2) :=
  Session.parse_set _

theorem parse_getRequest (k : Bytes) : s.parse lc [getRequest k] =
    .ok ((handleGetCmd lc (s.clock s.time) [.bulk k] s.args.sm).1,
      s.after (handleGetCmd lc (s.clock s.time) [.bulk k] s.args.sm).2) :=
  Session.parse_get _

/-- GET finds the value that a SET without options stored. -/
theorem handleGetCmd_set {now t1 : Timespec} {ra : Realloc} {sm sm' : Store} {k v : Bytes}
    (h : Sound sm) (hr : handleSetCmd now ra [.bulk k, .bulk v] sm = (some ok, sm')) :
    handleGetCmd lc t1 [.bulk k] sm' = (some (bulkString v), sm') := by
  let c : SetCommand := ⟨k, v, none, none, none⟩
  have hc : handleSetCmd now ra c.args sm = (some ok, sm') := hr
  by_cases he : c.key = [] ∨ c.value = []
  · rw [handleSetCmd_empty now ra he] at hc
    cases hc
  rw [not_or] at he
  rw [handleSetCmd_plain ⟨rfl, rfl⟩ he.1 he.2] at hc
  rcases h with hnone | ⟨es, hst, hcap⟩
  · rw [executeSetBasic, executeSetCheck, hnone, Option.isSome_none, Bool.and_false] at hc
    cases hc
  obtain ⟨es', hst', hlook⟩ := executeSetBasic_stored hst hcap hc
  have hentry : entryAt sm' k = some ⟨⟨k, now, 0, 0⟩, ⟨v, .bulkStr⟩⟩ := by
    rw [entryAt_eq hst']
    exact congrArg (Option.map _) hlook
  exact handleGetCmd_quote he.1 hentry rfl rfl

/-- The handler of GET finds the value that a SET stored. -/
theorem parse_setRequest_getRequest {k v : Bytes} (hs : s.args.Sound)
    (h : s.parse lc [setRequest k v] = .ok (some ok, s')) :
    ∃ s₂, s'.parse lc [getRequest k] = .ok (some (bulkString v), s₂) := by
  rw [parse_setRequest] at h
  cases hset : handleSetCmd (s.clock s.time) (s.realloc s.time) [.bulk k, .bulk v] s.args.sm with
  | mk rtn sm =>
    rw [hset] at h
    cases h
    have hget : handleGetCmd lc (s.clock (s.time + 1)) [.bulk k] sm = (some (bulkString v), sm) :=
      handleGetCmd_set hs.sm hset
    refine ⟨(s.after sm).after sm, (parse_getRequest k).trans ?_⟩
    show Except.ok ((handleGetCmd lc (s.clock (s.time + 1)) [.bulk k] sm).1,
      (s.after sm).after (handleGetCmd lc (s.clock (s.time + 1)) [.bulk k] sm).2) = _
    rw [hget]

theorem requestList_of_isRequest {ts : List Node} (ht : ∀ t ∈ ts, t.IsRequest) :
    RequestList ts := by
  induction ts with
  | nil => trivial
  | cons t ts ih =>
    refine ⟨?_, ih fun t h => ht t (List.mem_cons_of_mem _ h)⟩
    cases t with
    | bulk content => exact absurd (ht _ List.mem_cons_self) id
    | array size els => exact ht (.array size els) List.mem_cons_self

theorem isRequest_getRequest {k : Bytes} (hk : k.length ≤ 512000000) :
    (getRequest k).IsRequest := by
  refine ⟨rfl, List.cons_ne_nil _ _, show 2 < 2 ^ 31 by decide, ?_, hk, trivial⟩
  show (ascii "GET").length ≤ 512000000
  decide

/-- After a SET that was answered with `+OK`, what is sent for the GET is the value as a bulk string up
to its first NUL, with one NUL more. What is sent for requests is their replies one after the
other only if there are no requests. -/
theorem nothing_survives {s : Session} (h : requests.Reach s.args) (lc : Libc)
    (unset : World → Ptr) (heap : Heap Cell) :
    (∀ (k v : Bytes) (s' : Session), k.length ≤ 512000000 →
      s.parse lc [setRequest k v] = .ok (some ok, s') →
      ∃ c, appCode unset (Session.parse lc) heap (encodeList [getRequest k]) s' = .ok c ∧
        c.sent = cstr (bulkString v) ++ [0] ∧ c.sent ≠ bulkString v) ∧
    ∀ (ts : List Node) (rs : List (Option Bytes)) (s' : Session), (∀ t ∈ ts, t.IsRequest) →
      answers (Session.parse lc) ts s = .ok (rs, s') →
      ∃ c, appCode unset (Session.parse lc) heap (encodeList ts) s = .ok c ∧
        (c.sent = (rs.map (·.getD errorMsg)).flatten ↔ ts = []) := by
  have hs := requests_sound.reach h
  constructor
  · intro k v s' hk hset
    obtain ⟨s₂, hget⟩ := parse_setRequest_getRequest hs hset
    have ht : ∀ t ∈ [getRequest k], t.IsRequest := by
      intro t ht
      rw [List.mem_singleton.mp ht]
      exact isRequest_getRequest hk
    obtain ⟨heap', hrun⟩ := appCode_encodeList unset (Session.parse lc) ht heap s'
    have hans : answers (Session.parse lc) [getRequest k] s' = .ok ([some (bulkString v)], s₂) := by
      simp only [answers, hget, bind, Except.bind]
    rw [hans] at hrun
    have hbuilt : ∀ r ∈ [bulkString v], Built r := by
      intro r hr
      rw [List.mem_singleton.mp hr, bulkString_eq_encode]
      exact .inr (framed_encode _)
    have hne := flatMap_sentString_ne hbuilt (List.cons_ne_nil _ _)
    exact ⟨_, hrun, by simp [wire, sentString], by simpa [wire] using hne⟩
  · intro ts rs s' ht hans
    obtain ⟨heap', hrun⟩ := appCode_encodeList unset (Session.parse lc) ht heap s
    rw [hans] at hrun
    obtain ⟨hlen, hbuilt⟩ := answers_built (requestList_of_isRequest ht) hs hans
    refine ⟨_, hrun, ?_⟩
    constructor
    · -- a reply is sent with one byte too many, or with fewer than it has
      intro heq
      by_contra hne
      have hrs : rs.map (·.getD errorMsg) ≠ [] := by
        intro hnil
        rw [List.map_eq_nil_iff.mp hnil] at hlen
        exact hne (List.length_eq_zero_iff.mp hlen.symm)
      refine flatMap_sentString_ne hbuilt hrs ?_
      rwa [List.flatMap_map]
    · rintro rfl
      obtain rfl := List.length_eq_zero_iff.mp hlen
      rfl

end Session

/-- `SET k v` and `GET k`: a NUL follows the `v`. -/
theorem nothing_survives_kv :
    (∃ s' c, start.parse .exact [setRequest (ascii "k") (ascii "v")] = .ok (some ok, s') ∧
      appCode (fun _ => none) (Session.parse .exact) Heap.empty
        (encodeList [getRequest (ascii "k")]) s' = .ok c ∧
      c.sent = ascii "$1\r\nv\r\n" ++ [0]) ∧
    ∃ c, appCode (fun _ => none) (Session.parse .exact) Heap.empty
        (encodeList [getRequest (ascii "k")]) start = .ok c ∧ c.sent ≠ nil := by
  obtain ⟨hget, hall⟩ := nothing_survives (s := start) (.init ⟨rfl, configured_initialArgs⟩) .exact
    (fun _ => none) Heap.empty
  have ht : ∀ t ∈ [getRequest (ascii "k")], t.IsRequest := by
    intro t ht
    rw [List.mem_singleton.mp ht]
    exact isRequest_getRequest (by decide)
  constructor
  · obtain ⟨c, hrun, hsent, -⟩ := hget (ascii "k") (ascii "v") _ (by decide) rfl
    exact ⟨_, c, rfl, hrun, hsent⟩
  · obtain ⟨c, hrun, hiff⟩ := hall [getRequest (ascii "k")] [some nil] _ ht rfl
    exact ⟨c, hrun, fun heq => List.cons_ne_nil _ _ (hiff.mp heq)⟩

/-- A value with a NUL: `GET k` is answered with its bytes before the NUL. -/
theorem nulValue_not_sent : ∃ s' c,
    start.parse .exact [setRequest (ascii "k") [97, 0, 98]] = .ok (some ok, s') ∧
    appCode (fun _ => none) (Session.parse .exact) Heap.empty (encodeList [getRequest (ascii "k")])
      s' = .ok c ∧
    c.sent = ascii "$3\r\na" ++ [0] ∧ c.sent ≠ bulkString [97, 0, 98] := by
  have ht : ∀ t ∈ [getRequest (ascii "k")], t.IsRequest := by
    intro t ht
    rw [List.mem_singleton.mp ht]
    exact isRequest_getRequest (by decide)
  obtain ⟨s', hset⟩ : ∃ s', start.parse .exact [setRequest (ascii "k") [97, 0, 98]] =
      .ok (some ok, s') := ⟨_, rfl⟩
  have hs : start.args.Sound := requests_sound.reach (.init ⟨rfl, configured_initialArgs⟩)
  obtain ⟨s₂, hget⟩ := parse_setRequest_getRequest hs hset
  obtain ⟨heap', hrun⟩ := appCode_encodeList (fun _ => none) (Session.parse .exact) ht Heap.empty s'
  simp only [answers, hget, bind, Except.bind] at hrun
  have hsent : wire [some (bulkString [97, 0, 98])] = ascii "$3\r\na" ++ [0] := rfl
  refine ⟨s', _, hset, hrun, hsent, ?_⟩
  show wire [some (bulkString [97, 0, 98])] ≠ bulkString [97, 0, 98]
  decide

end RedisImpl
