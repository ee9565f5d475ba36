import RedisImpl.Platform
import RedisImpl.Protocol.Memory
import RedisImpl.Protocol.Resp

/-!
# ECHO

`__handle_echo_cmd` prints the arguments into buffers with `snprintf`. One counter, shared by the
whole recursion, is the size of every buffer, and so it is what cuts off the `(null)` that `%s`
prints for a missing sibling. `clean` says of which arguments the cut is in the right place.
-/

namespace RedisImpl

/-- What `%d` prints. -/
def percentD (n : Int) : Bytes :=
  if n < 0 then ascii "-" ++ decimal n.natAbs else decimal n.natAbs

/-- What `%s` prints of a pointer, which may be NULL. -/
def percentS : Option Bytes → Bytes
  | none => ascii "(null)"
  | some s => cstr s

@[simp] theorem percentD_natCast (n : Nat) : percentD n = decimal n := by
  have h : ¬ (n : Int) < 0 := by omega
  rw [percentD, if_neg h, Int.natAbs_natCast]

/-- `calloc(*size+1,sizeof(char))` and the `snprintf` of `text` into it. If `*size+1` is negative
there is no buffer to write to, and if it is 0 there is no room for the NUL at its end. -/
def echoBuffer (size : BitVec 32) (text : Bytes) : Except Fault Bytes :=
  if (size + 1).toInt ≤ 0 then .error .outOfBounds else .ok (text.take size.toNat)

/-- What `__handle_echo_cmd` returns: the buffer, without the NUL at its end, or NULL, and
`*size`. -/
abbrev EchoRtn := Except Fault (Option Bytes × BitVec 32)

mutual

/-- `__handle_echo_cmd` of a node, where `next` is `__handle_echo_cmd(gnode->node->next, size)`. -/
def handleEchoNode : Node → (BitVec 32 → EchoRtn) → BitVec 32 → EchoRtn
  | .array arrSize content, next, size => do
    let (elements, size) ← handleEchoNodes content size
    let (next, size) ← next size
    let arrSizeS := (percentD arrSize).take 20
    let size := size + BitVec.ofNat 32 (arrSizeS.length + 3)
    let rtn ← echoBuffer size (ascii "*" ++ percentD arrSize ++ ascii "\r\n" ++
      percentS elements ++ percentS next)
    .ok (some rtn, size)
  | .bulk content, next, size => do
    let (next, size) ← next size
    let bsSize := (percentD content.length).take 9
    let size := size + BitVec.ofNat 32 (bsSize.length + 5 + (cstr content).length)
    let rtn ← echoBuffer size (ascii "$" ++ percentD content.length ++ ascii "\r\n" ++
      percentS (some content) ++ ascii "\r\n" ++ percentS next)
    .ok (some rtn, size)

/-- `__handle_echo_cmd`. -/
def handleEchoNodes : List Node → BitVec 32 → EchoRtn
  | [], size => .ok (none, size)
  | n :: next, size => handleEchoNode n (handleEchoNodes next) size

end

/-- `handle_echo_cmd`. -/
def handleEchoCmd (fstNod : List Node) : Except Fault (Option Bytes) :=
  (handleEchoNodes fstNod 0).map Prod.fst

namespace Node

mutual

/-- There is no NUL in its bulk strings. -/
def NulFree : Node → Prop
  | bulk content => 0 ∉ content
  | array _ els => NulFreeList els

def NulFreeList : List Node → Prop
  | [] => True
  | e :: es => e.NulFree ∧ NulFreeList es

end

mutual

/-- `zero` is whether the counter is 0 when the node, with more siblings after it if `more`, is
printed. -/
def cleanNode : Node → Bool → Bool → Bool
  | bulk _, _, _ => true
  | array _ els, zero, more => (zero || !more) && clean els zero

/-- An array that has a later sibling is printed with the counter at 0, so that it comes after no
other such array. The counter is not 0 any more where the later siblings of an array are printed. -/
def clean : List Node → Bool → Bool
  | [], _ => true
  | n :: next, zero =>
    n.cleanNode zero !next.isEmpty &&
      clean next (zero && n.bulkContent.isSome)

end

end Node

open Node
open Resp (Sequence sequence_zero sequence_array sequence_bulk sequence_encode
  sequence_encodeList sequence_head)

/-- What `__handle_echo_cmd` returns for `ns` when the counter is `s`, as the caller's `%s` prints
it. If `ns` is `clean`, it is the encoding with garbage that the cut of the caller's buffer leaves
out when `s` is 0; else no continuation of it is a sequence of values. -/
structure Echoed (s : Nat) (ns : List Node) (rtn : Option Bytes) : Prop where
  null_iff : rtn = none ↔ ns = []
  nulFree : ∀ b, rtn = some b → 0 ∉ b
  length_ge : (encodeList ns).length ≤ (percentS rtn).length
  length_le : ns ≠ [] → (percentS rtn).length ≤ s + (encodeList ns).length
  of_clean : clean ns (s = 0) = true →
    ∃ t, (percentS rtn).take (s + (encodeList ns).length) = encodeList ns ++ (40 :: t).take s
  of_not_clean : clean ns (s = 0) = false →
    ∀ k y, ¬ Sequence (k + 1) ((percentS rtn).take (encodeList ns).length ++ y)

theorem echoed_nil (s : Nat) : Echoed s [] none where
  null_iff := by simp
  nulFree := by simp
  length_ge := Nat.zero_le _
  length_le h := absurd rfl h
  of_clean _ := ⟨ascii "null)", by simp [encodeList, percentS]; rfl⟩
  of_not_clean h := absurd h (by simp [clean])

theorem percentS_take {text : Bytes} (h : 0 ∉ text) (n : Nat) :
    percentS (some (text.take n)) = text.take n :=
  cstr_eq_self fun hm => h (List.mem_of_mem_take hm)

theorem Echoed.percentS_some {s : Nat} {ns : List Node} {b : Bytes} (h : Echoed s ns (some b)) :
    percentS (some b) = b :=
  cstr_eq_self (h.nulFree b rfl)

theorem Echoed.zero_notMem {s : Nat} {ns : List Node} {rtn : Option Bytes} (h : Echoed s ns rtn) :
    0 ∉ percentS rtn := by
  cases rtn with
  | none => decide
  | some b =>
    rw [h.percentS_some]
    exact h.nulFree b rfl

/-- One step of the recursion, for a node whose own bytes `own` come before the text `rest` of its
elements and later siblings. -/
theorem Echoed.of_parts {s : Nat} {n : Node} {next : List Node} {own rest : Bytes} {l : Nat}
    (hl : (encodeList (n :: next)).length = own.length + l) (hrest : l ≤ rest.length)
    (hown : 0 ∉ own) (hr : 0 ∉ rest)
    (hc : clean (n :: next) (s = 0) = true →
      ∃ t, own ++ rest.take (s + l) = encodeList (n :: next) ++ (40 :: t).take s)
    (hn : clean (n :: next) (s = 0) = false →
      ∀ k y, ¬ Sequence (k + 1) (own ++ (rest.take l ++ y))) :
    Echoed s (n :: next) (some ((own ++ rest).take (s + (encodeList (n :: next)).length))) := by
  have hz : 0 ∉ own ++ rest := by
    rw [List.mem_append]
    exact fun h => h.elim hown hr
  have htake : ∀ m, (own ++ rest).take (m + (own.length + l)) = own ++ rest.take (m + l) := by
    intro m
    rw [show m + (own.length + l) = own.length + (m + l) by omega, List.take_length_add_append]
  constructor
  · simp
  · intro b hb
    cases hb
    exact fun h => hz (List.mem_of_mem_take h)
  · rw [percentS_take hz, List.length_take, List.length_append]
    omega
  · intro _
    rw [percentS_take hz, List.length_take]
    omega
  · intro h
    rw [percentS_take hz, List.take_take, Nat.min_self, hl, htake]
    exact hc h
  · intro h k y
    have h0 := htake 0
    rw [Nat.zero_add, Nat.zero_add] at h0
    rw [percentS_take hz, List.take_take, Nat.min_eq_left (Nat.le_add_left _ _), hl, h0,
      List.append_assoc]
    exact hn h k y

theorem encodeList_ne_nil {ns : List Node} (h : ns ≠ []) : 0 < (encodeList ns).length := by
  cases ns with
  | nil => exact absurd rfl h
  | cons n ns =>
    cases n <;> simp only [encodeList, encode, List.cons_append, List.length_cons] <;> omega

theorem Echoed.eq_of_clean {s : Nat} {ns : List Node} {rtn : Option Bytes} (h : Echoed s ns rtn)
    (hne : ns ≠ []) (hc : clean ns (s = 0) = true) :
    ∃ t, percentS rtn = encodeList ns ++ (40 :: t).take s := by
  obtain ⟨t, ht⟩ := h.of_clean hc
  rw [List.take_of_length_le (h.length_le hne)] at ht
  exact ⟨t, ht⟩

theorem Echoed.take_of_clean {s : Nat} {ns : List Node} {rtn : Option Bytes} (h : Echoed s ns rtn)
    (hc : clean ns (s = 0) = true) :
    (percentS rtn).take (encodeList ns).length = encodeList ns := by
  obtain ⟨t, ht⟩ := h.of_clean hc
  have h1 := congrArg (List.take (encodeList ns).length) ht
  rwa [List.take_take, Nat.min_eq_left (Nat.le_add_left _ _), List.take_left] at h1

/-- No sequence of values starts with the garbage. -/
theorem not_sequence_garbage (k : Nat) (x : Bytes) : ¬ Sequence k (40 :: x) := by
  cases k with
  | zero => exact fun h => absurd (sequence_zero.mp h) (List.cons_ne_nil _ _)
  | succ k => exact fun h => absurd (sequence_head h) (by decide)

/-- What is not clean is no sequence of values at all. -/
theorem Echoed.not_sequence {s : Nat} {ns : List Node} {rtn : Option Bytes} (h : Echoed s ns rtn)
    (hc : clean ns (s = 0) = false) (k : Nat) (y : Bytes) :
    ¬ Sequence k ((percentS rtn).take (encodeList ns).length ++ y) := by
  cases k with
  | zero =>
    intro hs
    have hne : ns ≠ [] := by
      rintro rfl
      exact absurd hc (by simp [clean])
    have hpos := encodeList_ne_nil hne
    have hge := h.length_ge
    have hlen := congrArg List.length (sequence_zero.mp hs)
    rw [List.length_append, List.length_take, List.length_nil] at hlen
    omega
  | succ k => exact h.of_not_clean hc k y

/-- A bulk string and its later siblings. -/
theorem Echoed.bulk {s : Nat} {b : Bytes} {next : List Node} {rtn : Option Bytes}
    (h : Echoed s next rtn) (hb : 0 ∉ b) :
    Echoed s (.bulk b :: next)
      (some (((Node.bulk b).encode ++ percentS rtn).take
        (s + (encodeList (.bulk b :: next)).length))) := by
  have hclean : clean (.bulk b :: next) (s = 0) = clean next (s = 0) := by
    simp [clean, cleanNode]
  refine .of_parts (l := (encodeList next).length) ?_ h.length_ge ?_ h.zero_notMem ?_ ?_
  · rw [encodeList, List.length_append]
  · have hz := zero_notMem_decimal b.length
    simp [encode, hz, hb]
  · intro hc
    obtain ⟨t, ht⟩ := h.of_clean (hclean ▸ hc)
    exact ⟨t, by rw [ht, encodeList, List.append_assoc]⟩
  · intro hc k y hs
    exact h.not_sequence (hclean ▸ hc) k y ((sequence_encode (.bulk b)).mp hs)

/-- The sequence that the elements and the later siblings of an array have to be. -/
theorem not_sequence_header {n k : Nat} {x : Bytes} (h : ¬ Sequence (n + k) x) :
    ¬ Sequence (k + 1) (42 :: (decimal n ++ [13, 10]) ++ x) := by
  intro hs
  rw [List.cons_append, List.append_assoc] at hs
  exact h (sequence_array.mp hs)

/-- An array and its later siblings. -/
theorem Echoed.array {s : Nat} {els next : List Node} {elements rtn : Option Bytes}
    (he : Echoed s els elements) (h : Echoed (s + (encodeList els).length) next rtn)
    (hne : els ≠ []) :
    Echoed s (.array els.length els :: next)
      (some ((42 :: (decimal els.length ++ [13, 10]) ++ (percentS elements ++ percentS rtn)).take
        (s + (encodeList (.array els.length els :: next)).length))) := by
  have hpos : decide (s + (encodeList els).length = 0) = false := by
    have := encodeList_ne_nil hne
    rw [decide_eq_false_iff_not]
    omega
  have hle := he.length_le hne
  have hge := he.length_ge
  have hz := zero_notMem_decimal els.length
  refine .of_parts (l := (encodeList els).length + (encodeList next).length) ?_ ?_ ?_ ?_ ?_ ?_
  · simp only [encodeList, encode, List.length_append, List.length_cons, List.length_nil]
    omega
  · have := h.length_ge
    rw [List.length_append]
    omega
  · simp [hz]
  · rw [List.mem_append]
    exact fun hm => hm.elim he.zero_notMem h.zero_notMem
  · intro hc
    simp only [clean, cleanNode, Bool.and_eq_true, bulkContent_array, Option.isSome_none,
      Bool.and_false] at hc
    obtain ⟨⟨hmore, hels⟩, hnext⟩ := hc
    obtain ⟨t, ht⟩ := he.eq_of_clean hne hels
    rw [ht, List.append_assoc, show s + ((encodeList els).length + (encodeList next).length) =
      (encodeList els).length + (s + (encodeList next).length) by omega,
      List.take_length_add_append]
    -- clean: nothing follows, or the counter was still zero
    cases next with
    | nil =>
      cases s with
      | zero => exact ⟨[], by simp [encodeList, encode]⟩
      | succ s =>
        refine ⟨t.take s ++ percentS rtn, ?_⟩
        simp [encodeList, encode]
    | cons n next =>
      have hs : s = 0 := by simpa using hmore
      subst hs
      have hrest := h.take_of_clean (hpos ▸ hnext)
      refine ⟨[], ?_⟩
      rw [List.take_zero, List.nil_append, Nat.zero_add, hrest]
      simp [encodeList, encode]
  · intro hc k y
    apply not_sequence_header
    cases hels : clean els (s = 0) with
    | false =>
      -- the elements are wrong, whatever follows
      have hlen : ((percentS elements).take (encodeList els).length).length =
          (encodeList els).length := by
        rw [List.length_take]
        omega
      have hsplit : (percentS elements ++ percentS rtn).take
            ((encodeList els).length + (encodeList next).length) =
          (percentS elements).take (encodeList els).length ++
            ((percentS elements).drop (encodeList els).length ++ percentS rtn).take
              (encodeList next).length := by
        rw [← List.take_length_add_append, hlen, ← List.append_assoc, List.take_append_drop]
      rw [hsplit, List.append_assoc]
      exact he.not_sequence hels _ _
    | true =>
      obtain ⟨t, ht⟩ := he.eq_of_clean hne hels
      rw [ht, List.append_assoc, List.take_length_add_append, List.append_assoc,
        sequence_encodeList]
      simp only [clean, cleanNode, hels, Bool.and_true, bulkContent_array, Option.isSome_none,
        Bool.and_false] at hc
      cases next with
      | nil => simp [clean] at hc
      | cons n next =>
        cases s with
        | zero =>
          -- the elements are right, and the later siblings are not
          rw [List.take_zero, List.nil_append]
          refine h.not_sequence ?_ k y
          rw [hpos]
          simpa using hc
        | succ s =>
          -- the garbage after the elements comes before the later siblings
          obtain ⟨m, hm⟩ := Nat.exists_eq_add_one_of_ne_zero
            (Nat.ne_of_gt (encodeList_ne_nil (List.cons_ne_nil n next)))
          rw [hm, List.take_succ_cons, List.cons_append, List.take_succ_cons, List.cons_append]
          exact not_sequence_garbage k _

/-! ## The counter -/

theorem echoBuffer_ok {s : Nat} (h : s < 2 ^ 31 - 1) (text : Bytes) :
    echoBuffer (BitVec.ofNat 32 s) text = .ok (text.take s) := by
  have hs : (BitVec.ofNat 32 s).toNat = s := by
    rw [BitVec.toNat_ofNat]
    omega
  have hpos : ¬ (BitVec.ofNat 32 s + 1).toInt ≤ 0 := by
    rw [show (1 : BitVec 32) = BitVec.ofNat 32 1 from rfl, ← BitVec.ofNat_add,
      BitVec.toInt_eq_toNat_cond, BitVec.toNat_ofNat]
    omega
  rw [echoBuffer, if_neg hpos, hs]

/-- The counter has wrapped to a negative number. -/
theorem echoBuffer_fault {s : Nat} (h : 2 ^ 31 - 1 ≤ s) (h' : s < 2 ^ 32) (text : Bytes) :
    echoBuffer (BitVec.ofNat 32 s) text = .error .outOfBounds := by
  have hneg : (BitVec.ofNat 32 s + 1).toInt ≤ 0 := by
    rw [show (1 : BitVec 32) = BitVec.ofNat 32 1 from rfl, ← BitVec.ofNat_add,
      BitVec.toInt_eq_toNat_cond, BitVec.toNat_ofNat]
    omega
  rw [echoBuffer, if_pos hneg]

/-- What `__handle_echo_cmd` does with the counter at `s`. -/
def EchoRun (s : Nat) (ns : List Node) (r : EchoRtn) : Prop :=
  if s + (encodeList ns).length < 2 ^ 31 - 1 then
    ∃ rtn, r = .ok (rtn, BitVec.ofNat 32 (s + (encodeList ns).length)) ∧ Echoed s ns rtn
  else r = .error .outOfBounds

/-- What a bulk string adds to the counter. -/
theorem echo_bulk_size {b : Bytes} (hb : b.length ≤ 512000000) (hz : 0 ∉ b) :
    ((percentD b.length).take 9).length + 5 + (cstr b).length = (Node.bulk b).encode.length ∧
      (Node.bulk b).encode.length ≤ 512000014 := by
  have hd : (decimal b.length).length ≤ 9 := length_decimal_le (by decide) (by omega)
  rw [percentD_natCast, List.take_of_length_le hd, cstr_eq_self hz]
  simp only [encode, List.length_cons, List.length_append, List.length_nil]
  omega

theorem echo_bulk_text {b : Bytes} (hz : 0 ∉ b) (rest : Bytes) :
    ascii "$" ++ percentD b.length ++ ascii "\r\n" ++ percentS (some b) ++ ascii "\r\n" ++ rest =
      (Node.bulk b).encode ++ rest := by
  rw [percentD_natCast, percentS, cstr_eq_self hz, show ascii "$" = [36] from rfl,
    show ascii "\r\n" = [13, 10] from rfl]
  simp [encode]

theorem echo_array_size {n : Nat} (h : n < 2 ^ 31) :
    ((percentD n).take 20).length + 3 = (decimal n).length + 3 ∧ (decimal n).length ≤ 10 := by
  have hd : (decimal n).length ≤ 10 := length_decimal_le (by decide) (by omega)
  rw [percentD_natCast, List.take_of_length_le (by omega)]
  exact ⟨rfl, hd⟩

theorem echo_array_text (n : Nat) (elements rest : Bytes) :
    ascii "*" ++ percentD n ++ ascii "\r\n" ++ elements ++ rest =
      42 :: (decimal n ++ [13, 10]) ++ (elements ++ rest) := by
  rw [percentD_natCast, show ascii "*" = [42] from rfl, show ascii "\r\n" = [13, 10] from rfl]
  simp

theorem EchoRun.bulk {s : Nat} {b : Bytes} {next : List Node}
    (hb : b.length ≤ 512000000) (hz : 0 ∉ b)
    (h : EchoRun s next (handleEchoNodes next (BitVec.ofNat 32 s))) :
    EchoRun s (.bulk b :: next)
      (handleEchoNode (.bulk b) (handleEchoNodes next) (BitVec.ofNat 32 s)) := by
  obtain ⟨hsize, hle⟩ := echo_bulk_size hb hz
  have hl : (encodeList (.bulk b :: next)).length =
      (Node.bulk b).encode.length + (encodeList next).length := by
    rw [encodeList, List.length_append]
  unfold EchoRun at h
  split at h
  · obtain ⟨rtn, hrun, he⟩ := h
    have hcounter : BitVec.ofNat 32 (s + (encodeList next).length) +
        BitVec.ofNat 32 (((percentD b.length).take 9).length + 5 + (cstr b).length) =
          BitVec.ofNat 32 (s + (encodeList (.bulk b :: next)).length) := by
      rw [hsize, ← BitVec.ofNat_add, hl, Nat.add_assoc, Nat.add_comm (encodeList next).length]
    unfold EchoRun
    split
    · refine ⟨_, ?_, he.bulk hz⟩
      simp only [handleEchoNode, hrun, bind, Except.bind, hcounter, echo_bulk_text hz]
      rw [echoBuffer_ok (by omega)]
    · simp only [handleEchoNode, hrun, bind, Except.bind, hcounter, echo_bulk_text hz]
      rw [echoBuffer_fault (by omega) (by omega)]
  · unfold EchoRun
    rw [if_neg (by omega), handleEchoNode, h]
    rfl

theorem EchoRun.array {s : Nat} {els next : List Node} (hne : els ≠ []) (hn : els.length < 2 ^ 31)
    (he : EchoRun s els (handleEchoNodes els (BitVec.ofNat 32 s)))
    (h : s + (encodeList els).length < 2 ^ 31 - 1 →
      EchoRun (s + (encodeList els).length) next
        (handleEchoNodes next (BitVec.ofNat 32 (s + (encodeList els).length)))) :
    EchoRun s (.array els.length els :: next)
      (handleEchoNode (.array els.length els) (handleEchoNodes next) (BitVec.ofNat 32 s)) := by
  obtain ⟨hsize, hle⟩ := echo_array_size hn
  have hl : (encodeList (.array els.length els :: next)).length =
      (encodeList els).length + (encodeList next).length + ((decimal els.length).length + 3) := by
    simp only [encodeList, encode, List.length_append, List.length_cons]
    omega
  unfold EchoRun at he
  split at he
  · -- the elements fit; the counter goes on with what they took
    obtain ⟨elements, hels, hee⟩ := he
    have h := h (by assumption)
    unfold EchoRun at h
    split at h
    · obtain ⟨rtn, hrun, hrest⟩ := h
      have hcounter : BitVec.ofNat 32 (s + (encodeList els).length + (encodeList next).length) +
          BitVec.ofNat 32 (((percentD els.length).take 20).length + 3) =
            BitVec.ofNat 32 (s + (encodeList (.array els.length els :: next)).length) := by
        rw [hsize, ← BitVec.ofNat_add, hl]
        congr 1
        omega
      unfold EchoRun
      split
      · refine ⟨_, ?_, hee.array hrest hne⟩
        simp only [handleEchoNode, hels, hrun, bind, Except.bind, hcounter, echo_array_text]
        rw [echoBuffer_ok (by omega)]
      · -- only the header of the array makes the counter too large
        simp only [handleEchoNode, hels, hrun, bind, Except.bind, hcounter, echo_array_text]
        rw [echoBuffer_fault (by omega) (by omega)]
    · unfold EchoRun
      rw [if_neg (by omega), handleEchoNode, hels]
      simp only [bind, Except.bind]
      rw [h]
  · unfold EchoRun
    rw [if_neg (by omega), handleEchoNode, he]
    rfl

mutual

theorem echoRun_node (n : Node) {next : List Node} {s : Nat} (hr : n.Request) (hz : n.NulFree)
    (h : ∀ s < 2 ^ 31 - 1, EchoRun s next (handleEchoNodes next (BitVec.ofNat 32 s)))
    (hs : s < 2 ^ 31 - 1) :
    EchoRun s (n :: next) (handleEchoNode n (handleEchoNodes next) (BitVec.ofNat 32 s)) := by
  cases n with
  | bulk content => exact .bulk hr hz (h s hs)
  | array size els =>
    obtain ⟨rfl, hne, hlt, hels⟩ := hr
    exact .array hne hlt (echoRun els hels hz hs) fun hs' => h _ hs'

/-- The text and the counter, for every list of arguments. -/
theorem echoRun (ns : List Node) {s : Nat} (hr : RequestList ns) (hz : NulFreeList ns)
    (hs : s < 2 ^ 31 - 1) : EchoRun s ns (handleEchoNodes ns (BitVec.ofNat 32 s)) := by
  cases ns with
  | nil =>
    unfold EchoRun
    rw [if_pos (by simpa [encodeList] using hs)]
    exact ⟨none, rfl, echoed_nil s⟩
  | cons n next => exact echoRun_node n hr.1 hz.1 (fun s hs => echoRun next hr.2 hz.2 hs) hs

end

section Reply

variable {args : List Node}

theorem handleEchoCmd_ok (hr : RequestList args) (hz : NulFreeList args)
    (hl : (encodeList args).length < 2 ^ 31 - 1) :
    ∃ rtn, handleEchoCmd args = .ok rtn ∧ Echoed 0 args rtn := by
  have h := echoRun args hr hz (s := 0) (by decide)
  unfold EchoRun at h
  rw [if_pos (by omega)] at h
  obtain ⟨rtn, hrun, he⟩ := h
  exact ⟨rtn, congrArg (Except.map Prod.fst) hrun, he⟩

theorem handleEchoCmd_fault (hr : RequestList args) (hz : NulFreeList args)
    (hl : ¬ (encodeList args).length < 2 ^ 31 - 1) :
    handleEchoCmd args = .error .outOfBounds := by
  have h := echoRun args hr hz (s := 0) (by decide)
  unfold EchoRun at h
  rw [if_neg (by omega)] at h
  exact congrArg (Except.map Prod.fst) h

/-- A buffer that is cut at the right place is the encoding. -/
theorem Echoed.eq_encodeList {b : Bytes} (h : Echoed 0 args (some b))
    (hc : clean args true = true) : b = encodeList args := by
  have hne : args ≠ [] := fun h0 => absurd (h.null_iff.mpr h0) (Option.some_ne_none b)
  obtain ⟨t, ht⟩ := h.eq_of_clean hne (by simpa using hc)
  rw [h.percentS_some] at ht
  simpa using ht

/-- Any other buffer is no sequence of values. -/
theorem Echoed.not_values {b : Bytes} (h : Echoed 0 args (some b))
    (hc : clean args true = false) (k : Nat) : ¬ Sequence k b := by
  have hn := h.not_sequence (by simpa using hc) k (b.drop (encodeList args).length)
  rwa [h.percentS_some, List.take_append_drop] at hn

/-- What `__handle_echo_cmd` does with bulk strings of any bytes, with the counter at `s`: a text
without NUL that is not empty, or a fault. -/
def EchoText (s : Nat) (r : EchoRtn) : Prop :=
  r = .error .outOfBounds ∨ ∃ rtn s', r = .ok (rtn, BitVec.ofNat 32 s') ∧ s ≤ s' ∧
    s' < 2 ^ 31 - 1 ∧ ∀ b, rtn = some b → 0 ∉ b ∧ b ≠ []

theorem EchoText.mono {s s' : Nat} {r : EchoRtn} (h : EchoText s' r) (hle : s ≤ s') :
    EchoText s r := by
  rcases h with h | ⟨rtn, s'', h, hle', hs, hb⟩
  · exact .inl h
  · exact .inr ⟨rtn, s'', h, Nat.le_trans hle hle', hs, hb⟩

/-- The end of `__handle_echo_cmd`: the counter moves from `s` by `more`, and the text is printed. -/
theorem EchoText.print {s : Nat} (more : Nat) (text : Bytes) (hs : s < 2 ^ 31 - 1) (h0 : 0 < more)
    (hmore : more ≤ 512000014) (hz : 0 ∉ text) (hne : text ≠ []) :
    EchoText s (do
      let rtn ← echoBuffer (BitVec.ofNat 32 s + BitVec.ofNat 32 more) text
      .ok (some rtn, BitVec.ofNat 32 s + BitVec.ofNat 32 more)) := by
  rw [← BitVec.ofNat_add]
  by_cases h : s + more < 2 ^ 31 - 1
  · rw [echoBuffer_ok h]
    refine .inr ⟨_, s + more, rfl, by omega, h, ?_⟩
    rintro b ⟨⟩
    refine ⟨fun hm => hz (List.mem_of_mem_take hm), fun hnil => ?_⟩
    rcases List.take_eq_nil_iff.mp hnil with h0' | hnil
    · omega
    · exact hne hnil
  · rw [echoBuffer_fault (by omega) (by omega)]
    exact .inl rfl

theorem zero_notMem_percentS (rtn : Option Bytes) : 0 ∉ percentS rtn := by
  cases rtn with
  | none => decide
  | some s => exact zero_notMem_cstr s

theorem EchoText.bulk {s : Nat} {b : Bytes} {next : BitVec 32 → EchoRtn}
    (hb : b.length ≤ 512000000) (h : EchoText s (next (BitVec.ofNat 32 s))) :
    EchoText s (handleEchoNode (.bulk b) next (BitVec.ofNat 32 s)) := by
  have hd : ((percentD b.length).take 9).length ≤ 9 := List.length_take_le _ _
  have hc : (cstr b).length ≤ b.length := (List.takeWhile_sublist _).length_le
  rcases h with h | ⟨rtn, s', h, hle, hs', -⟩
  · rw [handleEchoNode, h]
    exact .inl rfl
  · simp only [handleEchoNode, bind, Except.bind, h]
    refine EchoText.mono (EchoText.print _ _ hs' (by omega) (by omega) ?_ ?_) hle
    · have h1 : 0 ∉ ascii "$" := by decide
      have h2 : 0 ∉ ascii "\r\n" := by decide
      simp [h1, h2, zero_notMem_percentS, zero_notMem_decimal]
    · simp [ascii]

theorem EchoText.array {s : Nat} {els : List Node} {next : BitVec 32 → EchoRtn}
    (he : EchoText s (handleEchoNodes els (BitVec.ofNat 32 s)))
    (h : ∀ s < 2 ^ 31 - 1, EchoText s (next (BitVec.ofNat 32 s))) :
    EchoText s (handleEchoNode (.array els.length els) next (BitVec.ofNat 32 s)) := by
  have hd : ((percentD els.length).take 20).length ≤ 20 := List.length_take_le _ _
  rcases he with he | ⟨elements, s₁, he, hle₁, hs₁, -⟩
  · rw [handleEchoNode, he]
    exact .inl rfl
  · rcases h s₁ hs₁ with h | ⟨rtn, s₂, h, hle₂, hs₂, -⟩
    · simp only [handleEchoNode, he, bind, Except.bind, h]
      exact .inl rfl
    · have hrun : handleEchoNode (.array els.length els) next (BitVec.ofNat 32 s) = (do
          let rtn ← echoBuffer
            (BitVec.ofNat 32 s₂ + BitVec.ofNat 32 (((percentD els.length).take 20).length + 3))
            (ascii "*" ++ percentD els.length ++ ascii "\r\n" ++ percentS elements ++ percentS rtn)
          .ok (some rtn, BitVec.ofNat 32 s₂ +
            BitVec.ofNat 32 (((percentD els.length).take 20).length + 3))) := by
        simp only [handleEchoNode, he, bind, Except.bind, h]
      rw [hrun]
      refine EchoText.mono (EchoText.print _ _ hs₂ (by omega) (by omega) ?_ ?_)
        (Nat.le_trans hle₁ hle₂)
      · have h1 : 0 ∉ ascii "*" := by decide
        have h2 : 0 ∉ ascii "\r\n" := by decide
        simp [h1, h2, zero_notMem_percentS, zero_notMem_decimal]
      · simp [ascii]

mutual

theorem echoText_node (n : Node) {next : BitVec 32 → EchoRtn} {s : Nat} (hr : n.Request)
    (h : ∀ s < 2 ^ 31 - 1, EchoText s (next (BitVec.ofNat 32 s))) (hs : s < 2 ^ 31 - 1) :
    EchoText s (handleEchoNode n next (BitVec.ofNat 32 s)) := by
  cases n with
  | bulk content => exact .bulk hr (h s hs)
  | array size els =>
    obtain ⟨rfl, -, -, hels⟩ := hr
    exact .array (echoText els hels hs) h

theorem echoText (ns : List Node) {s : Nat} (hr : RequestList ns) (hs : s < 2 ^ 31 - 1) :
    EchoText s (handleEchoNodes ns (BitVec.ofNat 32 s)) := by
  cases ns with
  | nil => exact .inr ⟨none, s, rfl, Nat.le_refl s, hs, by simp⟩
  | cons n next => exact echoText_node n hr.1 (fun s hs => echoText next hr.2 hs) hs

end

/-- A reply to ECHO is a C string, and not the empty one. -/
theorem handleEchoCmd_text (hr : RequestList args) {b : Bytes}
    (h : handleEchoCmd args = .ok (some b)) : 0 ∉ b ∧ b ≠ [] := by
  rcases echoText args hr (s := 0) (by decide) with he | ⟨rtn, s', he, -, -, hb⟩
  · rw [handleEchoCmd, show (0 : BitVec 32) = BitVec.ofNat 32 0 from rfl, he] at h
    cases h
  · rw [handleEchoCmd, show (0 : BitVec 32) = BitVec.ofNat 32 0 from rfl, he] at h
    cases h
    exact hb b rfl

/-- `__handle_echo_cmd` returns NULL only for NULL. -/
theorem handleEchoNode_ne_null (n : Node) (next : BitVec 32 → EchoRtn) (size size' : BitVec 32) :
    handleEchoNode n next size ≠ .ok (none, size') := by
  intro h
  cases n with
  | bulk content =>
    simp only [handleEchoNode, bind, Except.bind] at h
    split at h
    · cases h
    · split at h <;> cases h
  | array n els =>
    simp only [handleEchoNode, bind, Except.bind] at h
    split at h
    · cases h
    · split at h
      · cases h
      · split at h <;> cases h

theorem handleEchoCmd_ne_null (hne : args ≠ []) : handleEchoCmd args ≠ .ok none := by
  intro h
  cases args with
  | nil => exact hne rfl
  | cons n next =>
    rw [handleEchoCmd, handleEchoNodes] at h
    cases hr : handleEchoNode n (handleEchoNodes next) 0 with
    | error e =>
      rw [hr] at h
      cases h
    | ok r =>
      rw [hr] at h
      obtain ⟨rtn, size⟩ := r
      cases h
      exact handleEchoNode_ne_null n _ 0 size hr

/-- The reply to ECHO is the encoding of its arguments. -/
def EchoExact (args : List Node) : Prop :=
  handleEchoCmd args = .ok (if args = [] then none else some (encodeList args))

/-- ECHO replies with the encoding of its arguments exactly if they are `clean` and the size of the
encoding fits into an `int` with room for the NUL. -/
theorem echoExact_iff (hr : RequestList args) (hz : NulFreeList args) :
    EchoExact args ↔ (encodeList args).length < 2 ^ 31 - 1 ∧ clean args true = true := by
  unfold EchoExact
  by_cases hl : (encodeList args).length < 2 ^ 31 - 1
  · obtain ⟨rtn, hrun, he⟩ := handleEchoCmd_ok hr hz hl
    rw [hrun, Except.ok.injEq]
    cases rtn with
    | none =>
      have hnil := he.null_iff.mp rfl
      subst hnil
      exact iff_of_true rfl ⟨hl, rfl⟩
    | some b =>
      have hne : args ≠ [] := fun h0 => absurd (he.null_iff.mpr h0) (Option.some_ne_none b)
      rw [if_neg hne, Option.some.injEq]
      constructor
      · rintro rfl
        refine ⟨hl, ?_⟩
        cases hc : clean args true with
        | true => rfl
        | false =>
          have hs : Sequence (args.length + 0) (encodeList args ++ []) :=
            (sequence_encodeList args).mpr (sequence_zero.mpr rfl)
          rw [List.append_nil] at hs
          exact absurd hs (he.not_values hc _)
      · exact fun h => he.eq_encodeList h.2
  · rw [handleEchoCmd_fault hr hz hl]
    exact iff_of_false (by simp) fun h => hl h.1

end Reply

/-- `ECHO [a] a`. -/
theorem echoExact_iff_nested :
    EchoExact [.array 1 [.bulk (ascii "a")], .bulk (ascii "a")] ↔
      (encodeList [.array 1 [.bulk (ascii "a")], .bulk (ascii "a")]).length < 2 ^ 31 - 1 ∧
        clean [.array 1 [.bulk (ascii "a")], .bulk (ascii "a")] true = true :=
  echoExact_iff (by simp [RequestList, Node.Request, ascii]) (by simp [NulFreeList, NulFree]; decide)

/-- `ECHO [a] [a] a`: the text is cut within the last argument. -/
theorem twoArrays_not_echoExact :
    ¬ EchoExact [.array 1 [.bulk (ascii "a")], .array 1 [.bulk (ascii "a")], .bulk (ascii "a")] := by
  unfold EchoExact
  decide

end RedisImpl
