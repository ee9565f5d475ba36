import RedisImpl.Protocol.Grammar

/-!
# Encoding and reading back

`Node.encode` is the canonical encoding of a tree. `readRequest_encode`: the reader undoes it and
leaves what follows, for every `Request`, and `lexer_encode` says the same of the lexer.
-/

namespace RedisImpl

namespace Node

mutual

/-- The canonical encoding. -/
def encode : Node → Bytes
  | bulk content => 36 :: (decimal content.length ++ 13 :: 10 :: (content ++ [13, 10]))
  | array _ els => 42 :: (decimal els.length ++ 13 :: 10 :: encodeList els)

def encodeList : List Node → Bytes
  | [] => []
  | e :: es => e.encode ++ encodeList es

end

mutual

/-- The trees that a client may send: arrays are not empty, their size is the number of their
elements, and all sizes are within the limits of the protocol. -/
def Request : Node → Prop
  | bulk content => content.length ≤ 512000000
  | array size els => size = els.length ∧ els ≠ [] ∧ els.length < 2 ^ 31 ∧ RequestList els

def RequestList : List Node → Prop
  | [] => True
  | e :: es => e.Request ∧ RequestList es

end

mutual

/-- The shape that the reader builds. -/
def toShape : Node → Shape false
  | bulk content => .bulk content
  | array size els => .array size (toShapes els)

def toShapes : List Node → List (Shape false)
  | [] => []
  | e :: es => e.toShape :: toShapes es

end

mutual

theorem toNode_toShape (n : Node) : n.toShape.toNode = n := by
  cases n with
  | bulk content => rfl
  | array size els => rw [toShape, Shape.toNode, toNodes_toShapes els]

theorem toNodes_toShapes (ns : List Node) : Shape.toNodes (toShapes ns) = ns := by
  cases ns with
  | nil => rfl
  | cons n ns => rw [toShapes, Shape.toNodes, toNode_toShape n, toNodes_toShapes ns]

end

theorem toShapes_length (ns : List Node) : (toShapes ns).length = ns.length := by
  rw [← Shape.toNodes_length, toNodes_toShapes]

mutual

theorem flawed_toShape (n : Node) (h : n.Request) : n.toShape.flawed true = false := by
  cases n with
  | bulk content => rfl
  | array size els =>
    rw [toShape, Shape.flawed, flawedList_toShapes els h.2.2.2, toShapes_length]
    simp [h.1]

theorem flawedList_toShapes (ns : List Node) (h : RequestList ns) :
    Shape.flawedList true (toShapes ns) = false := by
  cases ns with
  | nil => rfl
  | cons n ns =>
    rw [toShapes, Shape.flawedList, flawed_toShape n h.1, flawedList_toShapes ns h.2]
    rfl

end

end Node

open Node

section Reading

variable {n : Nat} {rest : Bytes}

/-- A size that is an `int`, in decimal. -/
theorem readSize_decimal (hn : n < 2 ^ 31) (rest : Bytes) :
    readSize (decimal n ++ 13 :: 10 :: rest) = .size n rest := by
  have hlen : (decimal n).length ≤ 10 := length_decimal_le (by decide) (by omega)
  have hv : value (decimal n) = n := value_decimal n
  rw [readSize_digits (decimal_ne_nil n) (fun c => isDigit_of_mem_decimal)
    (Nat.lt_of_le_of_lt hlen (by decide)), intValue_of_lt (by omega), hv]

/-- The bytes of a bulk string after the `$`. -/
theorem readBulk_encode {content : Bytes} (hc : content.length ≤ 512000000) (rest : Bytes) :
    readBulk (decimal content.length ++ 13 :: 10 :: (content ++ 13 :: 10 :: rest)) =
      .done content rest := by
  have hcrlf : afterCrlf (13 :: 10 :: rest) = some rest := afterCrlf_eq_some.mpr rfl
  rw [readBulk, readSize_decimal (by omega)]
  simp only []
  rw [if_neg (by unfold errInvChar; omega), if_neg (by omega), if_neg (by omega), Int.toNat_natCast,
    List.drop_left, List.take_left, hcrlf]

/-- The elements, if `rd` reads the arrays among them. -/
theorem readElements_encode {rd : Bytes → Outcome (Shape false)} {m : Nat}
    (hrd : ∀ size els rest, (Node.array size els).Request →
      (Node.array size els).encode.length ≤ m →
      rd (decimal els.length ++ 13 :: 10 :: (encodeList els ++ rest)) =
        .done (Node.array size els).toShape rest)
    {es : List Node} (hes : RequestList es) (hm : (encodeList es).length ≤ m)
    (acc : List (Shape false)) :
    readElements rd es.length acc (encodeList es ++ rest) = .done (acc ++ toShapes es) rest := by
  induction es generalizing acc with
  | nil => rw [toShapes, List.append_nil]; rfl
  | cons e es ih =>
    obtain ⟨he, hes⟩ := hes
    rw [encodeList, List.length_append] at hm
    have hrec := ih hes (by omega) (acc ++ [e.toShape])
    rw [List.append_assoc, List.singleton_append] at hrec
    cases e with
    | bulk content =>
      have hb := readBulk_encode he (encodeList es ++ rest)
      simp only [encodeList, encode, List.cons_append, List.append_assoc, List.nil_append,
        List.length_cons, readElements, if_true]
      rw [hb]
      exact hrec
    | array size els =>
      have ha := hrd size els (encodeList es ++ rest) he (by omega)
      simp only [encodeList, encode, List.cons_append, List.append_assoc, List.length_cons,
        readElements, if_true, show ¬ (42 : UInt8) = 36 by decide, if_false]
      rw [ha]
      exact hrec

/-- An array, after the `*`. -/
theorem readArray_encode {fuel : Nat} {size : Int} {els : List Node}
    (hr : (Node.array size els).Request) (hf : (Node.array size els).encode.length ≤ fuel) :
    readArray false fuel (decimal els.length ++ 13 :: 10 :: (encodeList els ++ rest)) =
      .done (Node.array size els).toShape rest := by
  induction fuel generalizing size els rest with
  | zero =>
    rw [encode, List.length_cons] at hf
    omega
  | succ fuel ih =>
    obtain ⟨rfl, hne, hlt, hes⟩ := hr
    have hpos : 0 < els.length := List.length_pos_of_ne_nil hne
    have hcount : (BitVec.ofInt 32 (els.length : Int)).toNat = els.length := by
      rw [BitVec.toNat_ofInt]
      omega
    rw [encode] at hf
    simp only [List.length_cons, List.length_append] at hf
    have hels : readElements (readArray false fuel) els.length [] (encodeList els ++ rest) =
        .done ([] ++ toShapes els) rest :=
      readElements_encode (m := fuel) (fun size els rest hr hm => ih hr hm) hes (by omega) []
    rw [readArray, readSize_decimal (by omega)]
    simp only []
    rw [if_neg (by unfold errInvChar; omega), if_neg (by omega), if_neg (by omega), hcount, hels]
    rfl

/-- A request, after the `*`. -/
theorem readRequest_encode {size : Int} {els : List Node} (hr : (Node.array size els).Request)
    (rest : Bytes) : readRequest false ((Node.array size els).encode.tail ++ rest) =
      .done (Node.array size els).toShape rest := by
  rw [encode, List.tail_cons, List.append_assoc, List.cons_append, List.cons_append]
  refine readArray_encode hr ?_
  rw [encode]
  simp only [List.length_cons, List.length_append]
  omega

end Reading

/-- The lexer undoes the encoding of a request, whatever the memory and the uninitialised variable
hold, and leaves the bytes that follow. -/
theorem lexer_encode {size : Int} {els : List Node} (hr : (Node.array size els).Request)
    (unset : World → Ptr) (heap : Heap Cell) (rest : Bytes) :
    ∃ p h, lexer unset ⟨heap, (Node.array size els).encode.tail ++ rest⟩ = .ok (some p, ⟨h, rest⟩) ∧
      printArray (some p) ⟨h, rest⟩ = .ok ((), ⟨h, rest⟩) ∧
      view (some p) ⟨h, rest⟩ = .ok ([.array size els], ⟨h, rest⟩) ∧
      ∃ u, deleteArray (some p) ⟨h, rest⟩ = .ok ((), ⟨u, rest⟩) := by
  obtain ⟨p, h, hrun, -, hprint, hview, hdel⟩ := lexer_unflawed unset
    (w := ⟨heap, (Node.array size els).encode.tail ++ rest⟩) (readRequest_encode hr rest)
    (flawed_toShape _ hr)
  rw [toNode_toShape] at hview
  exact ⟨p, h, hrun, hprint, hview, hdel⟩

end RedisImpl
