import RedisImpl.Protocol.Walk

/-!
# The lexer does what the reader says

`lexer_refines`: where the reader of `Protocol/Reader.lean` ends with a shape, the lexer builds it;
where it gives up, the lexer returns NULL and has freed what it built; where it says fault, the
lexer has undefined behaviour. The frame is left alone in all cases.

What the uninitialised variable holds matters at strays only. In the mode with strays, it points to
the record of `Lay.strays`, and only the first part is claimed. In the mode without, a stray is a
fault if it points to nothing (`Dangling`), and nothing is claimed about strays otherwise.
-/

namespace RedisImpl

open Heap

/-- `lex_bulk_str` from the buffer that `calloc` gave on. At NULL `recv` stores nothing,
and fails. -/
def lexPayload (strSize : Int) (zeros : Option Bytes) (len : Nat) : M Ptr := do
  match zeros with
  | none => return none
  | some zeros =>
    let buf ← alloc (.chars zeros)
    match ← readExactBytes len with
    | none =>
      free buf
      return none
    | some bytes =>
      store buf (.chars (bytes ++ [0]))
      if !(← isValidTerminator) then
        free buf
        return none
      newBulkStr buf none none strSize

section Steps

variable {w : World} {F : List (Nat × Cell)}

theorem readExactBytes_one_nil (h : w.inp = []) : readExactBytes 1 w = .ok (none, w) := by
  obtain ⟨heap, inp⟩ := w
  subst h
  rfl

theorem readExactBytes_one_cons {c : UInt8} {bs : Bytes} (h : w.inp = c :: bs) :
    readExactBytes 1 w = .ok (some [c], { w with inp := bs }) := by
  obtain ⟨heap, inp⟩ := w
  subst h
  rfl

/-- Reading as many bytes as there are. -/
theorem readExactBytes_ok {n : Nat} (hn : 0 < n) (hle : n ≤ w.inp.length) :
    readExactBytes n w = .ok (some (w.inp.take n), { w with inp := w.inp.drop n }) := by
  have hlen : (w.inp.take n).length = n := by rw [List.length_take]; omega
  rw [readExactBytes]
  simp only [hlen]
  rw [if_neg (by omega)]

theorem readExactBytes_short {n : Nat} (hle : w.inp.length < n) :
    readExactBytes n w = .ok (none, { w with inp := w.inp.drop n }) := by
  have hlen : (w.inp.take n).length < n := by rw [List.length_take]; omega
  rw [readExactBytes]
  simp only [hlen, or_true, if_true]

/-- `is_valid_terminator` takes CRLF. -/
theorem isValidTerminator_some {rest : Bytes} (h : afterCrlf w.inp = some rest) :
    isValidTerminator w = .ok (true, { w with inp := rest }) := by
  obtain ⟨heap, inp⟩ := w
  obtain rfl : inp = _ := afterCrlf_eq_some.mp h
  rfl

theorem isValidTerminator_none (h : afterCrlf w.inp = none) :
    ∃ rest, isValidTerminator w = .ok (false, { w with inp := rest }) := by
  obtain ⟨heap, inp⟩ := w
  cases inp with
  | nil => exact ⟨[], rfl⟩
  | cons c bs =>
    by_cases hc : c = 13
    · subst hc
      cases bs with
      | nil => exact ⟨[], rfl⟩
      | cons d bs =>
        have hd : d ≠ 10 := by
          rintro rfl
          cases h
        refine ⟨bs, ?_⟩
        rw [isValidTerminator, M.bind_ok (readExactBytes_one_cons rfl), if_neg (by simp),
          M.bind_ok (readExactBytes_one_cons rfl), M.pure_run]
        simp [hd]
    · refine ⟨bs, ?_⟩
      rw [isValidTerminator, M.bind_ok (readExactBytes_one_cons rfl), if_pos (by simp [hc])]
      rfl

/-- Allocating a block. -/
theorem alloc_owns (c : Cell) (ho : Owns w.heap F) :
    ∃ a h, alloc c w = .ok (some a, { w with heap := h }) ∧ Owns h ((a, c) :: F) :=
  ⟨_, _, rfl, ho.alloc c⟩

/-- `new_array`. -/
theorem newArray_owns (content : Ptr) (size : Int) (ho : Owns w.heap F) :
    ∃ p n h, newArray content none none size w = .ok (some p, { w with heap := h }) ∧
      Owns h ((n, .base ⟨.array, none, none⟩) :: (p, .array (some n) content size) :: F) := by
  obtain ⟨n, h1, hr1, ho1⟩ := alloc_owns (.base ⟨.array, none, none⟩) ho
  obtain ⟨p, h2, hr2, ho2⟩ := alloc_owns (w := { w with heap := h1 })
    (.array (some n) content size) ho1
  exact ⟨p, n, h2, (M.bind_ok hr1).trans hr2, ho2.perm (List.Perm.swap _ _ _)⟩

/-- Writing the terminator again. -/
theorem writeChar_terminator {c : Nat} {bytes : Bytes}
    (ho : Owns w.heap ((c, .chars (bytes ++ [0])) :: F)) :
    ∃ h, writeChar (some c) bytes.length 0 w = .ok ((), { w with heap := h }) ∧
      Owns h ((c, .chars (bytes ++ [0])) :: F) := by
  have hc := ho.load_of_mem List.mem_cons_self
  have hset : (bytes ++ [0]).set bytes.length 0 = bytes ++ [0] := by simp
  refine ⟨_, ?_, ho.store _⟩
  rw [writeChar, M.bind_ok (load_ok hc)]
  simp only [Int.toNat_natCast, hset]
  have hlen : 0 ≤ (bytes.length : Int) ∧ (bytes.length : Int) < ((bytes ++ [0]).length : Int) := by
    rw [List.length_append, List.length_singleton]
    omega
  rw [if_pos hlen]
  exact store_ok hc _

/-- `new_bulk_str` with a terminated buffer. -/
theorem newBulkStr_owns {c : Nat} {bytes : Bytes} (s : Bool) (x : Stray)
    (ho : Owns w.heap ((c, .chars (bytes ++ [0])) :: F)) :
    ∃ p n h, newBulkStr (some c) none none bytes.length w = .ok (some p, { w with heap := h }) ∧
      Owns h ((Lay.bulk p n c bytes : Lay s).blocks x none none ++ F) := by
  obtain ⟨n, h1, hr1, ho1⟩ := alloc_owns (.base ⟨.bulkStr, none, none⟩) ho
  have hfin (h : Heap Cell) (ho2 : Owns h ((c, .chars (bytes ++ [0])) ::
      (n, .base ⟨.bulkStr, none, none⟩) :: F)) :
      ∃ p h', alloc (.bulk (some n) (some c) bytes.length) { w with heap := h } =
          .ok (some p, { w with heap := h' }) ∧
        Owns h' ((Lay.bulk p n c bytes : Lay s).blocks x none none ++ F) := by
    obtain ⟨p, h3, hr3, ho3⟩ := alloc_owns (w := { w with heap := h })
      (.bulk (some n) (some c) bytes.length) ho2
    refine ⟨p, h3, hr3, ho3.perm ?_⟩
    exact ((List.Perm.swap _ _ _).cons _).trans (List.Perm.swap _ _ _)
  by_cases hz : bytes = []
  · subst hz
    obtain ⟨p, h, hr, ho'⟩ := hfin h1 (ho1.perm (List.Perm.swap _ _ _))
    exact ⟨p, n, h, (M.bind_ok hr1).trans hr, ho'⟩
  · obtain ⟨h2, hr2, ho2⟩ := writeChar_terminator (w := { w with heap := h1 })
      (ho1.perm (List.Perm.swap _ _ _))
    obtain ⟨p, h, hr, ho'⟩ := hfin h2 ho2
    refine ⟨p, n, h, (M.bind_ok hr1).trans ?_, ho'⟩
    have hne : (bytes.length : Int) ≠ 0 := by
      intro he
      exact hz (List.length_eq_zero_iff.mp (Int.ofNat_eq_zero.mp he))
    rw [if_pos hne]
    exact (M.bind_ok hr2).trans hr

/-- `lex_bulk_str` after a size of zero. -/
theorem lexBulkStr_empty (s : Bool) (x : Stray) {rest : Bytes} (ho : Owns w.heap F)
    (hg : getElSize w = .ok (0, { w with inp := rest })) :
    match afterCrlf rest with
    | some rest' => ∃ p n c h, lexBulkStr w = .ok (some p, ⟨h, rest'⟩) ∧
        Owns h ((Lay.bulk p n c [] : Lay s).blocks x none none ++ F)
    | none => ∃ v, lexBulkStr w = .ok (none, v) ∧ Owns v.heap F := by
  have hrun : lexBulkStr w = (do
      if !(← isValidTerminator) then return none
      let empStr ← alloc (.chars [0])
      newBulkStr empStr none none 0 : M Ptr) { w with inp := rest } := M.bind_ok hg
  cases hc : afterCrlf rest with
  | none =>
    obtain ⟨rest', ht⟩ := isValidTerminator_none (w := { w with inp := rest }) hc
    exact ⟨{ w with inp := rest' }, hrun.trans (M.bind_ok ht), ho⟩
  | some rest' =>
    have ht := isValidTerminator_some (w := { w with inp := rest }) hc
    obtain ⟨c, h1, hr1, ho1⟩ := alloc_owns (w := { w with inp := rest' }) (.chars [0]) ho
    obtain ⟨p, n, h2, hr2, ho2⟩ := newBulkStr_owns (w := ⟨h1, rest'⟩) s x
      (show Owns h1 ((c, .chars ([] ++ [0])) :: F) from ho1)
    exact ⟨p, n, c, h2, hrun.trans ((M.bind_ok ht).trans ((M.bind_ok hr1).trans hr2)), ho2⟩

/-- `lex_bulk_str` after a positive size: the payload, and CRLF. -/
theorem lexBulkStr_payload (s : Bool) (x : Stray) {rest : Bytes} {k : Nat} (hk : 0 < k)
    (hmax : k ≤ 512000000) (ho : Owns w.heap F)
    (hg : getElSize w = .ok ((k : Int), { w with inp := rest })) :
    match afterCrlf (rest.drop k) with
    | some rest' => ∃ p n c h, lexBulkStr w = .ok (some p, ⟨h, rest'⟩) ∧
        Owns h ((Lay.bulk p n c (rest.take k) : Lay s).blocks x none none ++ F)
    | none => ∃ v, lexBulkStr w = .ok (none, v) ∧ Owns v.heap F := by
  have hrun : lexBulkStr w =
      lexPayload k (some (List.replicate (k + 1) 0)) k { w with inp := rest } := by
    refine (M.bind_ok hg).trans ?_
    rw [if_neg (by simp [errInvChar]), if_neg (by omega), if_neg (by omega),
      if_neg (by simp [protoMaxBulkSize]; omega), if_neg (by omega)]
    rfl
  obtain ⟨buf, h1, hr1, ho1⟩ := alloc_owns (w := { w with inp := rest })
    (.chars (List.replicate (k + 1) 0)) ho
  rcases Nat.lt_or_ge rest.length k with hlt | hge
  · -- the stream ends within the payload
    have hdrop : rest.drop k = [] := List.drop_eq_nil_of_le (Nat.le_of_lt hlt)
    rw [hdrop]
    have hread := readExactBytes_short (w := ⟨h1, rest⟩) hlt
    obtain ⟨h2, hr2, ho2⟩ := free_owns (w := ⟨h1, rest.drop k⟩) ho1
    exact ⟨⟨h2, rest.drop k⟩,
      hrun.trans ((M.bind_ok hr1).trans ((M.bind_ok hread).trans (M.bind_ok hr2))), ho2⟩
  · have hread := readExactBytes_ok (w := ⟨h1, rest⟩) hk hge
    have hlen : (rest.take k).length = k := by rw [List.length_take]; omega
    have hst := store_ok (w := ⟨h1, rest.drop k⟩) (ho1.load_of_mem List.mem_cons_self)
      (.chars (rest.take k ++ [0]))
    have ho2 := ho1.store (.chars (rest.take k ++ [0]))
    cases hc : afterCrlf (rest.drop k) with
    | none =>
      obtain ⟨rest', ht⟩ := isValidTerminator_none
        (w := ⟨h1.store buf (.chars (rest.take k ++ [0])), rest.drop k⟩) hc
      obtain ⟨h3, hr3, ho3⟩ := free_owns
        (w := ⟨h1.store buf (.chars (rest.take k ++ [0])), rest'⟩) ho2
      exact ⟨⟨h3, rest'⟩, hrun.trans ((M.bind_ok hr1).trans ((M.bind_ok hread).trans
        ((M.bind_ok hst).trans ((M.bind_ok ht).trans (M.bind_ok hr3))))), ho3⟩
    | some rest' =>
      have ht := isValidTerminator_some
        (w := ⟨h1.store buf (.chars (rest.take k ++ [0])), rest.drop k⟩) hc
      obtain ⟨p, n, h3, hr3, ho3⟩ := newBulkStr_owns
        (w := ⟨h1.store buf (.chars (rest.take k ++ [0])), rest'⟩) s x ho2
      rw [hlen] at hr3
      exact ⟨p, n, buf, h3, hrun.trans ((M.bind_ok hr1).trans ((M.bind_ok hread).trans
        ((M.bind_ok hst).trans ((M.bind_ok ht).trans hr3)))), ho3⟩

/-- `lex_bulk_str` after a size within the limits. -/
theorem lexBulkStr_sized (s : Bool) (x : Stray) {rest : Bytes} {k : Nat} (hmax : k ≤ 512000000)
    (ho : Owns w.heap F) (hg : getElSize w = .ok ((k : Int), { w with inp := rest })) :
    match afterCrlf (rest.drop k) with
    | some rest' => ∃ p n c h, lexBulkStr w = .ok (some p, ⟨h, rest'⟩) ∧
        Owns h ((Lay.bulk p n c (rest.take k) : Lay s).blocks x none none ++ F)
    | none => ∃ v, lexBulkStr w = .ok (none, v) ∧ Owns v.heap F := by
  rcases Nat.eq_zero_or_pos k with rfl | hk
  · exact lexBulkStr_empty s x ho hg
  · exact lexBulkStr_payload s x hk hmax ho hg

/-- `lex_bulk_str`. -/
theorem lexBulkStr_refines (s : Bool) (x : Stray) (ho : Owns w.heap F) :
    match readBulk w.inp with
    | .done b rest => ∃ p n c h, lexBulkStr w = .ok (some p, ⟨h, rest⟩) ∧
        Owns h ((Lay.bulk p n c b : Lay s).blocks x none none ++ F)
    | .reject => ∃ v, lexBulkStr w = .ok (none, v) ∧ Owns v.heap F
    | .fault => ∃ e, lexBulkStr w = .error e := by
  have hsize := getElSize_eq w
  unfold readBulk
  cases hr : readSize w.inp with
  | bad =>
    rw [hr] at hsize
    obtain ⟨rest, hg⟩ := hsize
    exact ⟨{ w with inp := rest }, M.bind_ok hg, ho⟩
  | long =>
    rw [hr] at hsize
    exact ⟨_, M.bind_error hsize⟩
  | size n rest =>
    rw [hr] at hsize
    have hg : getElSize w = .ok (n, { w with inp := rest }) := hsize
    show match (if n = errInvChar then _ else _ : Outcome Bytes) with
      | .done b rest => _
      | .reject => _
      | .fault => _
    by_cases h2 : n = errInvChar
    · rw [if_pos h2]
      exact ⟨{ w with inp := rest }, (M.bind_ok hg).trans (by rw [if_pos h2]; rfl), ho⟩
    by_cases h1 : n = -1
    · -- nothing is allocated, and `new_bulk_str` gets no content
      rw [if_neg h2, if_pos h1]
      subst h1
      exact ⟨.dangling, (M.bind_ok hg).trans rfl⟩
    by_cases h0 : n < 0 ∨ 512000000 < n
    · rw [if_neg h2, if_neg h1, if_pos h0]
      refine ⟨{ w with inp := rest }, (M.bind_ok hg).trans ?_, ho⟩
      rw [if_neg h2, if_neg (by omega), if_neg h1]
      by_cases hm : n > protoMaxBulkSize
      · rw [if_pos hm]
        rfl
      · rw [if_neg hm, if_pos (by simp [protoMaxBulkSize] at hm; omega)]
        rfl
    rw [if_neg h2, if_neg h1, if_neg h0]
    obtain ⟨k, rfl⟩ := Int.eq_ofNat_of_zero_le (by omega : 0 ≤ n)
    simp only [Int.toNat_natCast]
    have h := lexBulkStr_sized s x (by omega) ho hg
    cases hc : afterCrlf (rest.drop k) with
    | none => rw [hc] at h; exact h
    | some rest' => rw [hc] at h; exact h

end Steps

/-! ## Linking elements -/

section Link

variable {w : World} {F : List (Nat × Cell)} {s : Bool} {x : Stray} {size : Int}

/-- The first element. -/
theorem linkElement_first {t : Lay s} {sn sp : Ptr}
    (ho : Owns w.heap (t.blocks x none none ++ (Lay.strays x s sn sp ++ F))) :
    ∃ p n h sn' sp', linkElement size none none (some (t.ptr x)) w =
        .ok (some p, { w with heap := h }) ∧
      Owns h ((Lay.array p n size [t]).blocks x none none ++ (Lay.strays x s sn' sp' ++ F)) := by
  obtain ⟨p, n, h1, hr1, ho1⟩ := newArray_owns (some (t.ptr x)) size ho
  have ho1' : Owns h1 (t.blocks x none none ++ (Lay.strays x s sn sp ++
      ((n, .base ⟨.array, none, none⟩) ::
        (p, .array (some n) (some (t.ptr x)) size) :: F))) := by
    refine ho1.perm (List.perm_iff_count.mpr fun a => ?_)
    simp only [List.count_append, List.count_cons]
    omega
  obtain ⟨h2, sn', sp', hr2, ho2⟩ := setPrev_lay (w := { w with heap := h1 }) t ho1' (some p)
  refine ⟨p, n, h2, sn', sp', (M.bind_ok (v := ⟨h2, w.inp⟩) (a := some p) ?_).trans rfl,
    ho2.perm ?_⟩
  · exact (M.bind_ok hr1).trans (M.bind_ok hr2)
  refine List.perm_iff_count.mpr fun a => ?_
  simp only [Lay.blocks, Lay.blocksList, Lay.head, List.append_nil, List.cons_append,
    List.count_append, List.count_cons]
  omega

/-- The next element, after `l`. -/
theorem linkElement_next {t l : Lay s} {ts : List (Lay s)} {p n : Nat} {sn sp : Ptr}
    (ho : Owns w.heap (t.blocks x none none ++ (Lay.strays x s sn sp ++
      ((Lay.array p n size (ts ++ [l])).blocks x none none ++ F)))) :
    ∃ h sn' sp', linkElement size (some p) (some (l.ptr x)) (some (t.ptr x)) w =
        .ok (some p, { w with heap := h }) ∧
      Owns h ((Lay.array p n size (ts ++ [l] ++ [t])).blocks x none none ++
        (Lay.strays x s sn' sp' ++ F)) := by
  obtain ⟨h1, sn1, sp1, hr1, ho1⟩ := setPrev_lay t ho (some (l.ptr x))
  have ho1' : Owns h1 (l.blocks x none (Lay.last x (some p) ts) ++ (Lay.strays x s sn1 sp1 ++
      ((n, .base ⟨.array, none, none⟩) :: (p, .array (some n) (Lay.head x none (ts ++ [l])) size) ::
        (Lay.blocksList x (some (l.ptr x)) (some p) ts ++
          (t.blocks x none (some (l.ptr x)) ++ F))))) := by
    refine ho1.perm (List.perm_iff_count.mpr fun a => ?_)
    simp only [Lay.blocks, Lay.blocksList_concat, List.cons_append, List.count_append,
      List.count_cons]
    omega
  obtain ⟨h2, sn2, sp2, hr2, ho2⟩ := setNext_lay (w := { w with heap := h1 }) l ho1'
    (some (t.ptr x))
  refine ⟨h2, sn2, sp2, (M.bind_ok (v := ⟨h1, w.inp⟩) (a := some p) ?_).trans
    (M.bind_ok hr2), ho2.perm ?_⟩
  · exact M.bind_ok hr1
  have hhead : Lay.head x none (ts ++ [l] ++ [t]) = Lay.head x none (ts ++ [l]) := by
    cases ts <;> rfl
  refine List.perm_iff_count.mpr fun a => ?_
  simp only [Lay.blocks, Lay.blocksList_concat, Lay.last_concat, hhead, List.cons_append,
    List.count_append, List.count_cons]
  omega

end Link

/-! ## The loop -/

/-- The uninitialised variable points to nothing, not even after an array was made. -/
def Dangling (unset : World → Ptr) : Prop := ∀ w, unset w = some (w.heap.size + 2)

/-- What the lexer does, `r`, is what the reader says, `o`, from the state `w`. -/
def Refines {s : Bool} (x : Stray) (unset : World → Ptr) (w : World) (o : Outcome (Shape s))
    (r : Except Fault (Ptr × World)) : Prop :=
  ∀ F sn sp, Owns w.heap (Lay.strays x s sn sp ++ F) →
    match o with
    | .done e rest => ∃ (t : Lay s) (h : _) (sn' sp' : Ptr), t.shape = e ∧
        r = .ok (some (t.ptr x), ⟨h, rest⟩) ∧
        Owns h (t.blocks x none none ++ (Lay.strays x s sn' sp' ++ F))
    | .reject => s = false → ∃ v, r = .ok (none, v) ∧ Owns v.heap F
    | .fault => s = false → Dangling unset → ∃ e, r = .error e

section Loop

variable {w : World} {F : List (Nat × Cell)} {s : Bool} {x : Stray} {size : Int}
  {unset : World → Ptr}

/-- The loop with the elements `ts` read: nothing is there before the first one. -/
inductive Part (x : Stray) (h : Heap Cell) (F : List (Nat × Cell)) (size : Int) :
    List (Lay s) → (array previous : Ptr) → Prop
  | start (sn sp : Ptr) : Owns h (Lay.strays x s sn sp ++ F) → Part x h F size [] none none
  | more (ts : List (Lay s)) (l : Lay s) (p n : Nat) (sn sp : Ptr) :
    Owns h ((Lay.array p n size (ts ++ [l])).blocks x none none ++ (Lay.strays x s sn sp ++ F)) →
    Part x h F size (ts ++ [l]) (some p) (some (l.ptr x))

/-- Giving up frees the elements, or faults at a `void`. -/
theorem Part.giveUp {ts : List (Lay s)} {array previous : Ptr}
    (hp : Part x w.heap F size ts array previous) (hs : s = false) :
    match (giveUp (Lay.shapes ts) : Outcome Unit) with
    | .done _ _ => False
    | .reject => ∃ v, (do deleteArray previous; return none : M Ptr) w = .ok (none, v) ∧
        Owns v.heap F
    | .fault => ∃ e, (do deleteArray previous; return none : M Ptr) w = .error e := by
  subst hs
  cases hp with
  | start sn sp ho => exact ⟨w, rfl, ho⟩
  | more ts l p n sn sp ho =>
    have hr := rewindVisits_array ho
    rw [Lay.last_concat] at hr
    have hspoiled : (Lay.array p n size (ts ++ [l]) : Lay false).shape.spoiled =
        Shape.spoiledList (Lay.shapes (ts ++ [l])) := by
      rw [Lay.shape, Shape.spoiled]
    unfold RedisImpl.giveUp
    cases hc : Shape.spoiledList (Lay.shapes (ts ++ [l])) with
    | true =>
      obtain ⟨e, hd⟩ := deleteArrayVisits_spoiled ho hr (hspoiled.trans hc)
      exact ⟨e, M.bind_error (deleteArray_of_error hd)⟩
    | false =>
      obtain ⟨h, hd, ho'⟩ := deleteArrayVisits_clean ho hr (hspoiled.trans hc)
      exact ⟨⟨h, w.inp⟩, M.bind_ok (deleteArray_of_visits hd), ho'⟩

/-- While the next element is read, everything else is the frame: it can be linked afterwards, and
it is still there if reading fails. -/
structure Part.Frame (x : Stray) (F : List (Nat × Cell)) (size : Int) (ts : List (Lay s))
    (array previous : Ptr) (G : List (Nat × Cell)) : Prop where
  link : ∀ (v : World) (t : Lay s) (sn sp : Ptr),
    Owns v.heap (t.blocks x none none ++ (Lay.strays x s sn sp ++ G)) →
    ∃ array' h, linkElement size array previous (some (t.ptr x)) v =
        .ok (array', { v with heap := h }) ∧
      Part x h F size (ts ++ [t]) array' (some (t.ptr x))
  back : s = false → ∀ h, Owns h G → Part x h F size ts array previous

theorem Part.frame {ts : List (Lay s)} {array previous : Ptr} {h : Heap Cell}
    (hp : Part x h F size ts array previous) :
    ∃ G sn sp, Owns h (Lay.strays x s sn sp ++ G) ∧ Part.Frame x F size ts array previous G ∧
      (s = false → ∀ a, a ∈ array.toList ++ Lay.ptrsList x ts ∨ a ∈ F.map Prod.fst →
        a ∈ G.map Prod.fst) := by
  cases hp with
  | start sn sp ho =>
    refine ⟨F, sn, sp, ho, ⟨?_, ?_⟩, ?_⟩
    · intro v t sn' sp' hv
      obtain ⟨p, n, h', sn2, sp2, hr, ho'⟩ := linkElement_first hv
      exact ⟨some p, h', hr, .more [] t p n sn2 sp2 ho'⟩
    · rintro rfl h' hG
      exact .start none none hG
    · rintro - a (ha | ha)
      · cases ha
      · exact ha
  | more ts l p n sn sp ho =>
    refine ⟨(Lay.array p n size (ts ++ [l])).blocks x none none ++ F, sn, sp, ho.perm ?_, ⟨?_, ?_⟩,
      ?_⟩
    · rw [← List.append_assoc, ← List.append_assoc]
      exact List.perm_append_comm.append_right F
    · intro v t sn' sp' hv
      obtain ⟨h', sn2, sp2, hr, ho'⟩ := linkElement_next hv
      exact ⟨some p, h', hr, .more (ts ++ [l]) t p n sn2 sp2 ho'⟩
    · rintro rfl h' hG
      exact .more ts l p n none none hG
    · rintro rfl a ha
      rw [List.map_append, List.mem_append]
      refine ha.imp_left fun ha => ?_
      exact (Lay.ptrs_sublist x none none (Lay.array p n size (ts ++ [l]))).subset ha

/-- What the loop does, `r`, is what the reader says, `o`. -/
def RefinesList (x : Stray) (unset : World → Ptr) (F : List (Nat × Cell)) (size : Int)
    (o : Outcome (List (Shape s))) (r : Except Fault (Ptr × World)) : Prop :=
  match o with
  | .done els rest => ∃ (p n : Nat) (ts : List (Lay s)) (h : _) (sn sp : Ptr),
      Lay.shapes ts = els ∧ r = .ok (some p, ⟨h, rest⟩) ∧
      Owns h ((Lay.array p n size ts).blocks x none none ++ (Lay.strays x s sn sp ++ F))
  | .reject => s = false → ∃ v, r = .ok (none, v) ∧ Owns v.heap F
  | .fault => s = false → Dangling unset → ∃ e, r = .error e

/-- Giving up in the loop. -/
theorem Part.refines_giveUp {ts : List (Lay s)} {array previous : Ptr}
    (hp : Part x w.heap F size ts array previous) {r : Except Fault (Ptr × World)}
    (hr : r = (do deleteArray previous; return none : M Ptr) w) :
    RefinesList (s := s) x unset F size (RedisImpl.giveUp (Lay.shapes ts)) r := by
  subst hr
  unfold RedisImpl.giveUp
  cases hc : Shape.spoiledList (Lay.shapes ts) with
  | true =>
    intro hs _
    have h := hp.giveUp hs
    rw [RedisImpl.giveUp, hc] at h
    exact h
  | false =>
    intro hs
    have h := hp.giveUp hs
    rw [RedisImpl.giveUp, hc] at h
    exact h

/-- The switch over the type byte, if `lexer` on an array does what `rd` says. Without a shape for
what is left in `current`, another byte is not a fault here but where the element is linked. -/
theorem lexCurrent_refines {lexer : M Ptr} {rd : Bytes → Outcome (Shape s)}
    (hx : s = true → ∀ w, unset w = some x.p)
    (hrec : ∀ w, Refines x unset w (rd w.inp) (lexer w)) (heap : Heap Cell) {c : UInt8} (bs : Bytes)
    (hc : c = 36 ∨ c = 42 ∨ s = true) :
    Refines x unset ⟨heap, bs⟩ (readItem rd c bs) (lexCurrent unset lexer c ⟨heap, bs⟩) := by
  unfold readItem lexCurrent
  by_cases hdollar : c = 36
  · rw [if_pos hdollar, if_pos (show c = dollarByte from hdollar)]
    intro F sn sp ho
    have h := lexBulkStr_refines s x ho
    cases hb : readBulk bs with
    | done b rest =>
      rw [hb] at h
      obtain ⟨p, n, c, h', hr, ho'⟩ := h
      exact ⟨.bulk p n c b, h', sn, sp, rfl, hr, ho'⟩
    | reject =>
      rw [hb] at h
      obtain ⟨v, hr, ho'⟩ := h
      exact fun _ => ⟨v, hr, ho'.right⟩
    | fault =>
      rw [hb] at h
      exact fun _ _ => h
  rw [if_neg hdollar, if_neg (show ¬ c = dollarByte from hdollar)]
  by_cases hstar : c = 42
  · rw [if_pos hstar, if_pos (show c = asteriskByte from hstar)]
    exact hrec ⟨heap, bs⟩
  · -- `current` keeps what the uninitialised variable holds
    have hs : s = true := (hc.resolve_left hdollar).resolve_left hstar
    rw [if_neg hstar, if_neg (show ¬ c = asteriskByte from hstar), dif_pos hs]
    intro F sn sp ho
    refine ⟨.stray hs, heap, sn, sp, rfl, ?_, ho⟩
    rw [hx hs]
    rfl

/-- An element whose type byte says nothing, where the variable points to nothing. -/
theorem linkElement_dangling (size : Int) (array previous : Ptr) (v : World) :
    ∃ e, linkElement size array previous (some (v.heap.size + 2)) v = .error e := by
  cases array with
  | none =>
    have hl : ((v.heap.alloc (.base ⟨.array, none, none⟩)).alloc
        (.array (some v.heap.size) (some (v.heap.size + 2)) size)).load (v.heap.size + 2) = none :=
      load_of_size_le (by simp)
    refine ⟨.dangling, M.bind_error ((M.bind_ok rfl).trans (M.bind_error ?_))⟩
    exact M.bind_error (M.bind_error (load_dangling hl))
  | some a =>
    have hl : v.heap.load (v.heap.size + 2) = none := load_of_size_le (by omega)
    exact ⟨.dangling, M.bind_error (M.bind_error (M.bind_error (M.bind_error (load_dangling hl))))⟩

/-- One round of the loop, if `current` is what `o` says. -/
theorem lexElements_round {lexer : M Ptr} {rd : Bytes → Outcome (Shape s)} {o : Outcome (Shape s)}
    {k : Nat} {ts : List (Lay s)} {array previous : Ptr} {c : UInt8} {bs : Bytes}
    (hi : w.inp = c :: bs)
    (ho : Refines x unset ⟨w.heap, bs⟩ o (lexCurrent unset lexer c ⟨w.heap, bs⟩))
    (hp : Part x w.heap F size ts array previous)
    (ih : ∀ {w : World} {ts : List (Lay s)} {array previous : Ptr}, 0 < k + ts.length →
      Part x w.heap F size ts array previous →
      RefinesList x unset F size (readElements rd k (Lay.shapes ts) w.inp)
        (lexElements unset lexer size k array previous w)) :
    RefinesList x unset F size (afterElement (Lay.shapes ts) (readElements rd k) o)
      (lexElements unset lexer size (k + 1) array previous w) := by
  have hread := readExactBytes_one_cons hi
  obtain ⟨G, sn, sp, hG, hframe, -⟩ := hp.frame
  have hcur := ho G sn sp hG
  have hrun : lexElements unset lexer size (k + 1) array previous w =
      (do
        let current ← lexCurrent unset lexer c
        if current.isNone then
          deleteArray previous
          return none
        else
          let array ← linkElement size array previous current
          lexElements unset lexer size k array current : M Ptr) ⟨w.heap, bs⟩ := M.bind_ok hread
  cases o with
  | done e rest =>
    obtain ⟨t, h, sn', sp', rfl, hc, hown⟩ := hcur
    -- the element is linked behind the others, and the loop goes on
    obtain ⟨array', h', hl, hp'⟩ := hframe.link ⟨h, rest⟩ t sn' sp' hown
    have hpos : 0 < k + (ts ++ [t]).length := by
      rw [List.length_append, List.length_singleton]
      omega
    have hrest := ih (w := ⟨h', rest⟩) hpos hp'
    rw [Lay.shapes_append] at hrest
    rw [hrun, M.bind_ok hc]
    have hstep : (do
        let array ← linkElement size array previous (some (t.ptr x))
        lexElements unset lexer size k array (some (t.ptr x)) : M Ptr) ⟨h, rest⟩ =
      lexElements unset lexer size k array' (some (t.ptr x)) ⟨h', rest⟩ := M.bind_ok hl
    simp only [Option.isNone_some, Bool.false_eq_true, if_false]
    rw [hstep]
    exact hrest
  | reject =>
    -- with strays in the shapes nothing is said of a refused message
    by_cases hs : s = false
    · obtain ⟨v, hc, hown⟩ := hcur hs
      refine Part.refines_giveUp (w := v) (hframe.back hs _ hown) ?_
      rw [hrun, M.bind_ok hc]
      rfl
    · show RefinesList x unset F size (RedisImpl.giveUp (Lay.shapes ts)) _
      unfold RedisImpl.giveUp
      cases Shape.spoiledList (Lay.shapes ts) with
      | true => exact fun h => absurd h hs
      | false => exact fun h => absurd h hs
  | fault =>
    intro hs hd
    obtain ⟨e, hc⟩ := hcur hs hd
    exact ⟨e, hrun.trans (M.bind_error hc)⟩

/-- The loop, if `lexer` on the elements that are arrays does what `rd` says. -/
theorem lexElements_refines {lexer : M Ptr} {rd : Bytes → Outcome (Shape s)}
    (hx : s = true → ∀ w, unset w = some x.p)
    (hrec : ∀ w, Refines x unset w (rd w.inp) (lexer w)) {k : Nat} {ts : List (Lay s)}
    {array previous : Ptr} (hk : 0 < k + ts.length)
    (hp : Part x w.heap F size ts array previous) :
    RefinesList x unset F size (readElements rd k (Lay.shapes ts) w.inp)
      (lexElements unset lexer size k array previous w) := by
  induction k generalizing w ts array previous with
  | zero =>
    cases hp with
    | start sn sp ho => exact absurd hk (Nat.lt_irrefl 0)
    | more ts l p n sn sp ho => exact ⟨p, n, ts ++ [l], w.heap, sn, sp, rfl, rfl, ho⟩
  | succ k ih =>
    cases hi : w.inp with
    | nil => exact hp.refines_giveUp (M.bind_ok (readExactBytes_one_nil hi))
    | cons c bs =>
      rw [readElements_cons]
      by_cases hc : c = 36 ∨ c = 42 ∨ s = true
      · exact lexElements_round hi (lexCurrent_refines hx hrec w.heap bs hc) hp ih
      · -- another type byte: `current` dangles, and the fault is where it is linked
        rw [not_or, not_or] at hc
        obtain ⟨hdollar, hstar, hs⟩ := hc
        rw [readItem, if_neg hdollar, if_neg hstar, dif_neg hs]
        intro _ hd
        have hcur : lexCurrent unset lexer c ⟨w.heap, bs⟩ =
            .ok (unset ⟨w.heap, bs⟩, ⟨w.heap, bs⟩) := by
          rw [lexCurrent, if_neg (show ¬ c = dollarByte from hdollar),
            if_neg (show ¬ c = asteriskByte from hstar)]
        obtain ⟨e, he⟩ := linkElement_dangling size array previous ⟨w.heap, bs⟩
        refine ⟨e, (M.bind_ok (readExactBytes_one_cons hi)).trans ((M.bind_ok hcur).trans ?_)⟩
        rw [hd]
        exact M.bind_error he

end Loop

/-! ## The lexer -/

section Lexer

variable {s : Bool} {x : Stray} {unset : World → Ptr}

/-- What the lexer makes of an empty or nil array. -/
theorem lexerVoid (s : Bool) (x : Stray) (type : RedisDtype) {w : World} {G : List (Nat × Cell)}
    (ho : Owns w.heap G) :
    ∃ (t : Lay s) (h : _), t.shape = .void type ∧
      (do
        let node ← newBaseNode type none none
        newArray node none none 1 : M Ptr) w = .ok (some (t.ptr x), { w with heap := h }) ∧
      Owns h (t.blocks x none none ++ G) := by
  obtain ⟨b, h1, hr1, ho1⟩ := alloc_owns (.base ⟨type, none, none⟩) ho
  obtain ⟨p, n, h2, hr2, ho2⟩ := newArray_owns (w := ⟨h1, w.inp⟩) (some b) 1 ho1
  exact ⟨.void p n b type, h2, rfl, (M.bind_ok hr1).trans hr2, ho2⟩

theorem lexerLoop_refines (hx : s = true → ∀ w, unset w = some x.p) (fuel : Nat) (w : World) :
    Refines x unset w (readArray s fuel w.inp) (lexerLoop unset fuel w) := by
  induction fuel generalizing w with
  | zero => exact fun F sn sp ho _ _ => ⟨.timeout, rfl⟩
  | succ fuel ih =>
    have hsize := getElSize_eq w
    intro F sn sp ho
    rw [readArray]
    cases hr : readSize w.inp with
    | bad =>
      rw [hr] at hsize
      obtain ⟨rest, hg⟩ := hsize
      exact fun _ => ⟨{ w with inp := rest }, M.bind_ok hg, ho.right⟩
    | long =>
      rw [hr] at hsize
      exact fun _ _ => ⟨_, M.bind_error hsize⟩
    | size n rest =>
      rw [hr] at hsize
      have hg : getElSize w = .ok (n, { w with inp := rest }) := hsize
      simp only []
      by_cases h2 : n = errInvChar
      · rw [if_pos h2]
        exact fun _ => ⟨{ w with inp := rest }, (M.bind_ok hg).trans (by rw [if_pos h2]; rfl),
          ho.right⟩
      -- nil and empty arrays become an `ArrayNode` with a bare `BaseNode`
      by_cases h1 : n = -1
      · rw [if_neg h2, if_pos h1]
        obtain ⟨t, h, ht, hrun, ho'⟩ := lexerVoid s x .nillArray (w := ⟨w.heap, rest⟩) ho
        refine ⟨t, h, sn, sp, ht, (M.bind_ok hg).trans ?_, ho'⟩
        rw [if_neg h2, if_pos h1]
        exact hrun
      by_cases h0 : n = 0
      · rw [if_neg h2, if_neg h1, if_pos h0]
        obtain ⟨t, h, ht, hrun, ho'⟩ := lexerVoid s x .emptyArray (w := ⟨w.heap, rest⟩) ho
        refine ⟨t, h, sn, sp, ht, (M.bind_ok hg).trans ?_, ho'⟩
        rw [if_neg h2, if_neg h1, if_pos h0]
        exact hrun
      rw [if_neg h2, if_neg h1, if_neg h0]
      have hrun : lexerLoop unset (fuel + 1) w = lexElements unset (lexerLoop unset fuel) n
          (BitVec.ofInt 32 n).toNat none none { w with inp := rest } := by
        refine (M.bind_ok hg).trans ?_
        rw [if_neg h2, if_neg h1, if_neg h0]
      have hpart : Part x ({ w with inp := rest } : World).heap F n ([] : List (Lay s)) none none :=
        .start sn sp ho
      have hels := lexElements_refines hx (fun v => ih v)
        (Nat.lt_of_lt_of_le (readSize_count_pos hr h0) (Nat.le_add_right _ _)) hpart
      rw [← hrun] at hels
      cases hrd : readElements (readArray s fuel) (BitVec.ofInt 32 n).toNat [] rest with
      | done els rest' =>
        simp only [Lay.shapes, hrd] at hels
        obtain ⟨p, node, ts, h, sn', sp', hts, hrun', ho'⟩ := hels
        exact ⟨.array p node n ts, h, sn', sp', by rw [Lay.shape, hts], hrun', ho'⟩
      | reject =>
        simp only [Lay.shapes, hrd] at hels
        exact hels
      | fault =>
        simp only [Lay.shapes, hrd] at hels
        exact hels

/-- `lexer` does what the reader says. -/
theorem lexer_refines (hx : s = true → ∀ w, unset w = some x.p) (w : World) :
    Refines x unset w (readRequest s w.inp) (lexer unset w) :=
  lexerLoop_refines hx _ w

end Lexer

end RedisImpl
