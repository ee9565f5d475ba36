import RedisImpl.App.Loop
import RedisImpl.Protocol.CleanUp

/-!
# Connections that break off

A stream of complete requests, with other bytes between them, and then a part of one more request.
`app_code` answers the complete ones; the part is refused with one error message, and nothing of it
gets to `parse_command` (`appCode_cut`).

* `readRequest_cut`: the reader refuses every part of a request but the whole.
* `appLoop_stops`: after a request that the reader refuses, the connection ends, whatever follows.
-/

namespace RedisImpl

open Heap Node

/-! ## The reader refuses a part of a request -/

section Reader

variable {bs more out out' : Bytes} {k : Nat}

theorem Accepted.append (h : Accepted k bs out) (more : Bytes) :
    Accepted k (bs ++ more) (out ++ more) := by
  induction h with
  | done bs => exact .done _
  | next hs _ ih => exact .next (skipItem_append hs) ih

/-- What follows the items is determined. -/
theorem Accepted.unique (h : Accepted k bs out) (h' : Accepted k bs out') : out = out' := by
  induction h with
  | done bs =>
    cases h'
    rfl
  | next hs _ ih => exact ih ((accepted_skip hs).mp h')

theorem accepted_encode {size : Int} {els : List Node} (hr : (Node.array size els).Request) :
    Accepted 1 (42 :: (Node.array size els).encode.tail) [] := by
  have htracks := readRequest_tracks false false ((Node.array size els).encode.tail ++ [])
  rw [readRequest_encode hr, List.append_nil] at htracks
  exact (htracks.2.2 0 []).mpr (.done [])

/-- A part of a request, but not all of it. -/
theorem readRequest_cut {size : Int} {els : List Node} (hr : (Node.array size els).Request)
    (hb : (Node.array size els).encode.tail = bs ++ more) (hmore : more ≠ []) :
    readRequest false bs = .reject := by
  have htracks := readRequest_tracks false false bs
  cases ho : readRequest false bs with
  | reject => rfl
  | done e rest =>
    rw [ho] at htracks
    have hacc : Accepted 1 (42 :: bs) rest := (htracks.2.2 0 rest).mpr (.done rest)
    have happ : Accepted 1 (42 :: (Node.array size els).encode.tail) (rest ++ more) :=
      hb ▸ hacc.append more
    exact absurd (List.append_eq_nil_iff.mp (happ.unique (accepted_encode hr))).2 hmore
  | fault =>
    rw [ho] at htracks
    rcases htracks.2 rfl rfl 0 with hf | hm
    · cases hf
    · refine absurd (hm.mono fun bs h => ?_) (unbroken_of_cut hr hb)
      rcases (flaw_eq_or false bs).mp h with hbroken | ⟨hf, -⟩
      · exact hbroken
      · cases hf

/-- The lexer returns NULL where the reader refuses. -/
theorem lexer_of_reject (h : readRequest false bs = .reject) (unset : World → Ptr)
    (heap : Heap Cell) : ∃ v, lexer unset ⟨heap, bs⟩ = .ok (none, v) := by
  have href := lexer_refines_false unset ⟨heap, bs⟩ [] none none (Owns.nil heap)
  rw [show (⟨heap, bs⟩ : World).inp = bs from rfl, h] at href
  obtain ⟨v, hv, -⟩ := href rfl
  exact ⟨v, hv⟩

end Reader

/-! ## The loop -/

/-- The bytes of some requests, each after other bytes. -/
def stream (ms : List (Bytes × Node)) : Bytes := ms.flatMap fun m => m.1 ++ m.2.encode

/-- The bytes before each request have no `*`. -/
def Spaced (ms : List (Bytes × Node)) : Prop := ∀ m ∈ ms, 42 ∉ m.1 ∧ m.2.IsRequest

/-- Bytes without `*`, and then, if `broken`, a part of a request. -/
inductive Remainder : (broken : Bool) → Bytes → Prop
  | noise {noise : Bytes} (hn : 42 ∉ noise) : Remainder false noise
  | part {noise bs more : Bytes} {size : Int} {els : List Node} (hn : 42 ∉ noise)
      (hr : (Node.array size els).Request) (hb : (Node.array size els).encode.tail = bs ++ more)
      (hmore : more ≠ []) : Remainder true (noise ++ 42 :: bs)

/-- A part of a remainder. -/
theorem Remainder.of_prefix {broken : Bool} {rest part : Bytes} (h : Remainder broken rest)
    (hpart : part <+: rest) : ∃ broken', Remainder broken' part := by
  cases h with
  | noise hn => exact ⟨false, .noise fun h => hn (hpart.subset h)⟩
  | part hn hr hb hmore =>
    rename_i noise bs more size els
    rcases List.prefix_or_prefix_of_prefix hpart (List.prefix_append noise (42 :: bs)) with
      hsub | ⟨p, rfl⟩
    · exact ⟨false, .noise fun h => hn (hsub.subset h)⟩
    · have hp := (List.prefix_append_right_inj noise).mp hpart
      cases p with
      | nil =>
        rw [List.append_nil]
        exact ⟨false, .noise hn⟩
      | cons c p =>
        obtain ⟨rfl, q, rfl⟩ := List.cons_prefix_cons.mp hp
        rw [List.append_assoc] at hb
        exact ⟨true, .part hn hr hb (List.append_ne_nil_of_right_ne_nil q hmore)⟩

/-- A part of a request, after bytes without `*`, unless it is all of it. -/
theorem Remainder.of_request {noise : Bytes} (hn : 42 ∉ noise) {t : Node} (ht : t.IsRequest)
    {p more : Bytes} (hp : p ++ more = t.encode) (hmore : more ≠ []) :
    Remainder (!p.isEmpty) (noise ++ p) := by
  cases t with
  | bulk content => exact absurd ht id
  | array size els =>
    have hencode : (Node.array size els).encode = 42 :: (Node.array size els).encode.tail := by
      simp [encode]
    cases p with
    | nil =>
      rw [List.append_nil]
      exact .noise hn
    | cons c bs =>
      rw [hencode, List.cons_append] at hp
      obtain ⟨rfl, hbs⟩ := List.cons_eq_cons.mp hp
      exact .part hn ht hbs.symm hmore

/-- Each request, with the bytes that follow it. -/
def callsBefore (rest : Bytes) : List (Bytes × Node) → List (List Node × Bytes)
  | [] => []
  | m :: ms => ([m.2], stream ms ++ rest) :: callsBefore rest ms

section Loop

variable {σ : Type} (unset : World → Ptr) (parse : List Node → σ → Except Fault (Option Bytes × σ))

/-- Bytes other than `*` are skipped. -/
theorem appLoop_skip {noise rest : Bytes} (hn : 42 ∉ noise) {fuel : Nat}
    (hf : (noise ++ rest).length < fuel) (heap : Heap Cell) (s : σ) (sent : Bytes)
    (calls : List (List Node × Bytes)) :
    ∃ fuel', rest.length < fuel' ∧
      appLoop unset parse fuel ⟨⟨heap, noise ++ rest⟩, s, sent, calls⟩ =
        appLoop unset parse fuel' ⟨⟨heap, rest⟩, s, sent, calls⟩ := by
  induction noise generalizing fuel with
  | nil => exact ⟨fuel, hf, rfl⟩
  | cons c noise ih =>
    rw [List.mem_cons, not_or] at hn
    cases fuel with
    | zero => exact absurd hf (Nat.not_lt_zero _)
    | succ fuel =>
      rw [List.cons_append, List.length_cons] at hf
      obtain ⟨fuel', hf', hrun⟩ := ih hn.2 (Nat.lt_of_succ_lt_succ hf)
      refine ⟨fuel', hf', ?_⟩
      have hpass : appLoop unset parse (fuel + 1) ⟨⟨heap, c :: noise ++ rest⟩, s, sent, calls⟩ =
          appLoop unset parse fuel ⟨⟨heap, noise ++ rest⟩, s, sent, calls⟩ := by
        simp only [List.cons_append, appLoop, if_neg (Ne.symm hn.1)]
      rw [hpass, hrun]

/-- The pass that begins with a `*`. -/
theorem appLoop_star (fuel : Nat) (heap : Heap Cell) (bs : Bytes) (s : σ) (sent : Bytes)
    (calls : List (List Node × Bytes)) :
    appLoop unset parse (fuel + 1) ⟨⟨heap, 42 :: bs⟩, s, sent, calls⟩ =
      (serveRequest unset parse ⟨⟨heap, bs⟩, s, sent, calls⟩).bind fun r =>
        if r.1 then appLoop unset parse fuel r.2 else .ok r.2 := rfl

/-- The complete requests of a stream are answered, and the loop goes on at the bytes `rest`. -/
theorem appLoop_stream {ms : List (Bytes × Node)} (hm : Spaced ms) (rest : Bytes) {fuel : Nat}
    (hf : (stream ms ++ rest).length < fuel) (heap : Heap Cell) (s : σ) (sent : Bytes)
    (calls : List (List Node × Bytes)) :
    ∃ heap' fuel', rest.length < fuel' ∧
      appLoop unset parse fuel ⟨⟨heap, stream ms ++ rest⟩, s, sent, calls⟩ =
        (answers parse (ms.map Prod.snd) s).bind fun r =>
          appLoop unset parse fuel'
            ⟨⟨heap', rest⟩, r.2, sent ++ wire r.1, calls ++ callsBefore rest ms⟩ := by
  induction ms generalizing fuel heap s sent calls with
  | nil =>
    refine ⟨heap, fuel, hf, ?_⟩
    simp [stream, answers, Except.bind, wire, callsBefore]
  | cons m ms ih =>
    obtain ⟨noise, t⟩ := m
    obtain ⟨⟨hnoise, hreq⟩, hms⟩ := List.forall_mem_cons.mp hm
    cases t with
    | bulk content => exact absurd hreq id
    | array size els =>
      have hr : (Node.array size els).Request := hreq
      have hhead : stream ((noise, .array size els) :: ms) ++ rest =
          noise ++ 42 :: ((Node.array size els).encode.tail ++ (stream ms ++ rest)) := by
        simp [stream, encode]
      rw [hhead] at hf ⊢
      obtain ⟨fuel₁, hf₁, hskip⟩ := appLoop_skip unset parse hnoise hf heap s sent calls
      rw [hskip]
      cases fuel₁ with
      | zero => exact absurd hf₁ (Nat.not_lt_zero _)
      | succ fuel₁ =>
        -- the lexer takes the request and nothing behind it
        obtain ⟨heap₁, hserve⟩ := serveRequest_encode unset parse hr heap (stream ms ++ rest) s sent calls
        rw [appLoop_star, hserve]
        cases hp : parse [.array size els] s with
        | error e => exact ⟨heap, rest.length + 1, Nat.lt_succ_self _, by
            simp [answers, hp, bind, Except.bind, Except.map]⟩
        | ok r =>
          obtain ⟨r, s'⟩ := r
          rw [List.length_cons, List.length_append] at hf₁
          have hfuel : (stream ms ++ rest).length < fuel₁ := by omega
          obtain ⟨heap₂, fuel₂, hf₂, hrest⟩ := ih hms hfuel heap₁ s'
            (sent ++ sentString (r.getD errorMsg))
            (calls ++ [([.array size els], stream ms ++ rest)])
          refine ⟨heap₂, fuel₂, hf₂, ?_⟩
          simp only [Except.map, Except.bind, if_true, hrest, List.map_cons, answers, hp, bind]
          cases answers parse (ms.map Prod.snd) s' with
          | error e => rfl
          | ok rs => simp [wire, callsBefore]

/-- A request that the reader refuses: an error message, and the end of the connection. -/
theorem appLoop_stops {bs : Bytes} (hb : readRequest false bs = .reject) {fuel : Nat} (hf : 0 < fuel)
    (heap : Heap Cell) (s : σ) (sent : Bytes) (calls : List (List Node × Bytes)) :
    ∃ w, appLoop unset parse fuel ⟨⟨heap, 42 :: bs⟩, s, sent, calls⟩ =
      .ok ⟨w, s, sent ++ sentString errorMsg, calls⟩ := by
  obtain ⟨v, hlex⟩ := lexer_of_reject hb unset heap
  cases fuel with
  | zero => exact absurd hf (Nat.lt_irrefl 0)
  | succ fuel =>
    refine ⟨v, ?_⟩
    rw [appLoop_star, serveRequest, hlex]
    rfl

/-- The connection ended in the state `s'`, with `sent` sent and after the calls `calls`. -/
def EndsWith (r : Except Fault (Conn σ)) (s' : σ) (sent : Bytes) (calls : List (List Node × Bytes)) :
    Prop :=
  ∃ w, r = .ok ⟨w, s', sent, calls⟩

/-- On complete requests and then the bytes `rest`, the loop calls `parse_command` for the complete
requests only, and ends with an error message if `broken`. -/
def Stops (ms : List (Bytes × Node)) (rest : Bytes) (broken : Bool) (heap : Heap Cell) (s : σ) : Prop :=
  match answers parse (ms.map Prod.snd) s with
  | .error e => appCode unset parse heap (stream ms ++ rest) s = .error e
  | .ok (rs, s') => EndsWith (appCode unset parse heap (stream ms ++ rest) s) s'
      (wire rs ++ if broken then sentString errorMsg else []) (callsBefore rest ms)

/-- After complete requests and other bytes, the end. -/
theorem appCode_ends {ms : List (Bytes × Node)} (hm : Spaced ms) {noise : Bytes} (hn : 42 ∉ noise)
    (heap : Heap Cell) (s : σ) : Stops unset parse ms noise false heap s := by
  obtain ⟨heap', fuel, hf, hrun⟩ := appLoop_stream unset parse hm noise
    (Nat.lt_succ_self _) heap s [] []
  have hcode : appCode unset parse heap (stream ms ++ noise) s = _ := hrun
  unfold Stops EndsWith
  rw [hcode]
  cases answers parse (ms.map Prod.snd) s with
  | error e => rfl
  | ok r =>
    rw [← List.append_nil noise] at hf
    obtain ⟨fuel', hf', hskip⟩ := appLoop_skip unset parse hn hf heap' r.2 ([] ++ wire r.1)
      ([] ++ callsBefore noise ms)
    rw [List.append_nil] at hskip
    cases fuel' with
    | zero => exact absurd hf' (Nat.not_lt_zero _)
    | succ fuel' =>
      refine ⟨⟨heap', []⟩, hskip.trans ?_⟩
      simp [appLoop]

/-- After complete requests and other bytes, a request that the reader refuses, with anything behind
it. -/
theorem appCode_stops {ms : List (Bytes × Node)} (hm : Spaced ms) {noise : Bytes} (hn : 42 ∉ noise)
    {bs : Bytes} (hb : readRequest false bs = .reject) (heap : Heap Cell) (s : σ) :
    Stops unset parse ms (noise ++ 42 :: bs) true heap s := by
  obtain ⟨heap', fuel, hf, hrun⟩ := appLoop_stream unset parse hm (noise ++ 42 :: bs)
    (Nat.lt_succ_self _) heap s [] []
  have hcode : appCode unset parse heap (stream ms ++ (noise ++ 42 :: bs)) s = _ := hrun
  unfold Stops EndsWith
  rw [hcode]
  cases answers parse (ms.map Prod.snd) s with
  | error e => rfl
  | ok r =>
    obtain ⟨fuel', hf', hskip⟩ := appLoop_skip unset parse hn hf heap' r.2 ([] ++ wire r.1)
      ([] ++ callsBefore (noise ++ 42 :: bs) ms)
    obtain ⟨w, hstop⟩ := appLoop_stops unset parse hb (Nat.zero_lt_of_lt hf') heap' r.2
      ([] ++ wire r.1) ([] ++ callsBefore (noise ++ 42 :: bs) ms)
    exact ⟨w, hskip.trans hstop⟩

theorem Remainder.stops {ms : List (Bytes × Node)} (hm : Spaced ms) {broken : Bool} {rest : Bytes}
    (h : Remainder broken rest) (heap : Heap Cell) (s : σ) :
    Stops unset parse ms rest broken heap s := by
  cases h with
  | noise hn => exact appCode_ends unset parse hm hn heap s
  | part hn hr hb hmore => exact appCode_stops unset parse hm hn (readRequest_cut hr hb hmore) heap s

/-- A connection that breaks off: complete requests, each after bytes without `*`, and then a part
of one more request. The complete requests get their replies, in order, and nothing else reaches
`parse_command`; the part gets one error message, unless there is none of it. -/
theorem appCode_cut {ms : List (Bytes × Node)} (hm : Spaced ms) {noise : Bytes} (hn : 42 ∉ noise)
    {t : Node} (ht : t.IsRequest) {part more : Bytes} (hpart : part ++ more = t.encode)
    (hmore : more ≠ []) (heap : Heap Cell) (s : σ) :
    Stops unset parse ms (noise ++ part) (!part.isEmpty) heap s :=
  (Remainder.of_request hn ht hpart hmore).stops unset parse hm heap s

end Loop

/-- CRLF and `SET k v`. -/
def firstSet : List (Bytes × Node) := [([13, 10], (Command.set setKV).node)]

/-- `GET k` without its last three bytes. -/
def brokenGet : Bytes := (Command.get (ascii "k")).node.encode.take 17

theorem brokenOff_cut : ∃ s',
    EndsWith (appCode (fun _ => none) (Session.parse .exact) Heap.empty
        (stream firstSet ++ ([] ++ brokenGet)) start) s'
      (wire [some ok] ++ sentString errorMsg) (callsBefore ([] ++ brokenGet) firstSet) := by
  obtain ⟨s', hanswers⟩ : ∃ s', answers (Session.parse .exact) (firstSet.map Prod.snd) start =
      .ok ([some ok], s') := ⟨_, rfl⟩
  have hm : Spaced firstSet := by
    intro m h
    obtain rfl := List.mem_singleton.mp h
    exact ⟨by decide, isRequest_twoCommands _ List.mem_cons_self⟩
  have hstops := appCode_cut (fun _ => none) (Session.parse .exact) hm List.not_mem_nil
    (isRequest_twoCommands (.get (ascii "k")) (List.mem_cons_of_mem _ List.mem_cons_self))
    (List.take_append_drop 17 _) (by decide) Heap.empty start
  unfold Stops at hstops
  rw [hanswers] at hstops
  exact ⟨s', hstops⟩

end RedisImpl
