import RedisImpl.Protocol.Reader

/-!
# A message as a flat sequence of items

A message can be read without recursion: a bulk string is one item, and an array's size prefix is
one item after which as many more are expected as it says. `Meets P k bs`: if `k` items are expected
at the beginning of `bs`, then somewhere before the message ends or breaks off, an item is expected
where `P` holds of the rest of the stream. `Accepted k bs out`: the message ends, and `out` follows.

`flaw` says at which items the lexer goes wrong, and `Shape.flawed` what it builds there.
-/

namespace RedisImpl

/-- The item at the beginning of a stream: how many more it makes one expect, and what follows it. A
type byte other than `$` and `*` is an item of its own. -/
def skipItem : Bytes → Option (Nat × Bytes)
  | [] => none
  | c :: bs =>
    if c = 36 then
      match readBulk bs with
      | .done _ rest => some (0, rest)
      | _ => none
    else if c = 42 then
      match readSize bs with
      | .size n rest =>
        if n = errInvChar then none
        else if n = -1 then some (0, rest)
        else some ((BitVec.ofInt 32 n).toNat, rest)
      | _ => none
    else some (0, bs)

inductive Meets (P : Bytes → Prop) : Nat → Bytes → Prop
  | here {k : Nat} {bs : Bytes} : P bs → Meets P (k + 1) bs
  | later {k n : Nat} {bs rest : Bytes} : skipItem bs = some (n, rest) → Meets P (n + k) rest →
      Meets P (k + 1) bs

inductive Accepted : Nat → Bytes → Bytes → Prop
  | done (bs : Bytes) : Accepted 0 bs bs
  | next {k n : Nat} {bs rest out : Bytes} : skipItem bs = some (n, rest) →
      Accepted (n + k) rest out → Accepted (k + 1) bs out

/-- The lexer has undefined behaviour or builds something else here: a type byte other than `$` and
`*`, a nil bulk string, an empty or nil array, or a size that is too long for the buffer. -/
def broken : Bytes → Bool
  | [] => false
  | c :: bs =>
    if c = 36 then
      match readSize bs with
      | .size n _ => n = -1
      | .long => true
      | .bad => false
    else if c = 42 then
      match readSize bs with
      | .size n _ => n = -1 || n = 0
      | .long => true
      | .bad => false
    else true

/-- An array whose size is negative as an `int`. -/
def huge : Bytes → Bool
  | [] => false
  | c :: bs => c = 42 && match readSize bs with
    | .size n _ => n < errInvChar
    | _ => false

/-- A flaw; with `h`, also an array whose size is not an `int`. -/
def flaw (h : Bool) (bs : Bytes) : Bool := broken bs || h && huge bs

section Meets

variable {P : Bytes → Prop} {k : Nat} {bs out : Bytes}

theorem not_meets_zero : ¬ Meets P 0 bs := by
  intro h
  cases h

theorem meets_succ : Meets P (k + 1) bs ↔
    P bs ∨ ∃ n rest, skipItem bs = some (n, rest) ∧ Meets P (n + k) rest := by
  constructor
  · intro h
    cases h with
    | here hp => exact .inl hp
    | later hs hm => exact .inr ⟨_, _, hs, hm⟩
  · rintro (hp | ⟨n, rest, hs, hm⟩)
    · exact .here hp
    · exact .later hs hm

/-- Where the item at the beginning is known. -/
theorem meets_skip {n : Nat} {rest : Bytes} (hs : skipItem bs = some (n, rest)) :
    Meets P (k + 1) bs ↔ P bs ∨ Meets P (n + k) rest := by
  rw [meets_succ]
  constructor
  · rintro (hp | ⟨n', rest', hs', hm⟩)
    · exact .inl hp
    · cases hs.symm.trans hs'
      exact .inr hm
  · rintro (hp | hm)
    · exact .inl hp
    · exact .inr ⟨n, rest, hs, hm⟩

theorem meets_stop (hs : skipItem bs = none) : Meets P (k + 1) bs ↔ P bs := by
  rw [meets_succ]
  constructor
  · rintro (hp | ⟨n, rest, hs', -⟩)
    · exact hp
    · rw [hs] at hs'
      cases hs'
  · exact .inl

/-- At the first of the items, or after it. -/
theorem Meets.first (h : P bs) (k : Nat) : Meets P (1 + k) bs := by
  rw [Nat.add_comm]
  exact .here h

theorem Meets.after {n : Nat} {rest : Bytes} (hs : skipItem bs = some (n, rest))
    (h : Meets P (n + k) rest) : Meets P (1 + k) bs := by
  rw [Nat.add_comm]
  exact .later hs h

theorem Meets.mono {Q : Bytes → Prop} (hpq : ∀ bs, P bs → Q bs) (h : Meets P k bs) :
    Meets Q k bs := by
  induction h with
  | here hp => exact .here (hpq _ hp)
  | later hs _ ih => exact .later hs ih

theorem accepted_skip {n : Nat} {rest : Bytes} (hs : skipItem bs = some (n, rest)) :
    Accepted (k + 1) bs out ↔ Accepted (n + k) rest out := by
  constructor
  · intro h
    cases h with
    | next hs' ha =>
      cases hs.symm.trans hs'
      exact ha
  · exact .next hs

theorem not_accepted_stop (hs : skipItem bs = none) : ¬ Accepted (k + 1) bs out := by
  intro h
  cases h with
  | next hs' _ =>
    rw [hs] at hs'
    cases hs'

end Meets

/-! ## Flawed shapes -/

namespace Shape

variable {s : Bool}

mutual

/-- A `void` or a stray is in it, or, with `h`, an array with a wrong size. -/
def flawed (h : Bool) : Shape s → Bool
  | bulk _ => false
  | array size els => h && size ≠ els.length || flawedList h els
  | void _ => true
  | stray _ => true

def flawedList (h : Bool) : List (Shape s) → Bool
  | [] => false
  | e :: es => e.flawed h || flawedList h es

end

theorem flawedList_append (h : Bool) (es fs : List (Shape s)) :
    flawedList h (es ++ fs) = (flawedList h es || flawedList h fs) := by
  induction es with
  | nil => rfl
  | cons e es ih => rw [List.cons_append, flawedList, flawedList, ih, Bool.or_assoc]

mutual

/-- Without strays, what is wrong is the `void`s. -/
theorem flawed_eq_spoiled (e : Shape false) : e.flawed false = e.spoiled := by
  cases e with
  | bulk b => rfl
  | array size els =>
    rw [flawed, spoiled, flawedList_eq_spoiledList els]
    rfl
  | void type => rfl
  | stray h => cases h

theorem flawedList_eq_spoiledList (es : List (Shape false)) :
    flawedList false es = spoiledList es := by
  cases es with
  | nil => rfl
  | cons e es => rw [flawedList, spoiledList, flawed_eq_spoiled e, flawedList_eq_spoiledList es]

end

end Shape

end RedisImpl
