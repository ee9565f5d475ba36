import RedisImpl.Protocol.Cut

/-!
# Giving up in the middle of a request

When the lexer gives up at some level, each of the nested calls cleans up its own level on the way
out. `lexer_cleansUp` says, for every request of non-empty arrays and non-nil bulk strings and
wherever it breaks off, that the clean-ups visit what belongs to their level, each record once, and
together all that was read; and that the clean-up of a finished tree visits the whole tree once.

The proof goes through the loop of the lexer with the tree that was built (`Part`) and the records
that were read: an invariant between `Lay.ptrs` and the account of `Protocol/Visits.lean`. What a
nested call has read is apart from the frame of that call, hence from the enclosing levels.

The requests, cut or not, are among these streams (`unbroken_of_cut`), and the lexer does return
there (`lexer_returns_cut`).
-/

namespace RedisImpl

open Heap

/-- The item at the beginning of the stream does not belong in such a request: a type byte other
than `$` and `*`, a nil bulk string, or an empty or nil array. -/
def unfit : Bytes → Bool
  | [] => false
  | c :: bs =>
    if c = 36 then
      match readSize bs with
      | .size n _ => n = -1
      | _ => false
    else if c = 42 then
      match readSize bs with
      | .size n _ => n = -1 || n = 0
      | _ => false
    else true

/-- The item at the beginning of the stream has a size that does not fit into the buffer of
`get_el_size`. -/
def tooLong : Bytes → Bool
  | [] => false
  | _ :: bs =>
    match readSize bs with
    | .long => true
    | _ => false

theorem broken_of_unfit {bs : Bytes} (h : unfit bs = true) : broken bs = true := by
  cases bs with
  | nil => cases h
  | cons c bs =>
    simp only [unfit, broken] at h ⊢
    cases hr : readSize bs <;> rw [hr] at h <;> split_ifs at h ⊢ <;> exact h

theorem broken_of_tooLong {bs : Bytes} (h : tooLong bs = true) : broken bs = true := by
  cases bs with
  | nil => cases h
  | cons c bs =>
    simp only [tooLong, broken] at h ⊢
    cases hr : readSize bs <;> rw [hr] at h <;> split_ifs <;> first | rfl | cases h

/-- The clean-up visits the level: it handles each record once and looks back at no other. -/
structure CleanUp.Exact (c : CleanUp) : Prop where
  handled : c.visits.handled.Perm c.level
  once : c.visits.handled.Nodup
  back : ∀ a ∈ c.visits.back, a ∈ c.level

/-- The clean-ups of a run are exact, visit no record of an enclosing level, and together handle
each record that was read once. -/
structure Trace.Exact (t : Trace) : Prop where
  each : ∀ c ∈ t.cleanUps, c.Exact
  apart : t.cleanUps.Pairwise fun c c' => ∀ a ∈ c.visits.back ++ c.visits.handled, a ∉ c'.level
  all : (t.cleanUps.flatMap fun c => c.visits.handled).Perm t.read
  nodup : t.read.Nodup

theorem Trace.exact_nil : Trace.Exact ⟨[], []⟩ where
  each _ hc := absurd hc List.not_mem_nil
  apart := List.Pairwise.nil
  all := List.Perm.refl _
  nodup := List.nodup_nil

/-- What a clean-up visits was read. -/
theorem Trace.Exact.mem_read {t : Trace} (h : t.Exact) {c : CleanUp} (hc : c ∈ t.cleanUps) {a : Nat}
    (ha : a ∈ c.visits.back ++ c.visits.handled) : a ∈ t.read := by
  have hlevel : a ∈ c.level := by
    rcases List.mem_append.mp ha with hb | hh
    · exact (h.each c hc).back a hb
    · exact (h.each c hc).handled.mem_iff.mp hh
  have hhandled := (h.each c hc).handled.mem_iff.mpr hlevel
  exact h.all.mem_iff.mp (List.mem_flatMap.mpr ⟨c, hc, hhandled⟩)

/-- One more level gives up. -/
theorem Trace.Exact.giveUp {t : Trace} {c : CleanUp} (h : t.Exact) (hc : c.Exact)
    (hd : ∀ a ∈ t.read, a ∉ c.level) :
    Trace.Exact ⟨c.level ++ t.read, t.cleanUps ++ [c]⟩ where
  each c' hc' := by
    rcases List.mem_append.mp hc' with hc' | hc'
    · exact h.each c' hc'
    · rw [List.mem_singleton.mp hc']
      exact hc
  apart := by
    refine List.pairwise_append.mpr ⟨h.apart, List.pairwise_singleton _ _, ?_⟩
    intro c₁ h₁ c₂ h₂ a ha
    rw [List.mem_singleton.mp h₂]
    exact hd a (h.mem_read h₁ ha)
  all := by
    rw [List.flatMap_append, List.flatMap_singleton]
    exact (h.all.append hc.handled).trans List.perm_append_comm
  nodup := (hc.handled.nodup_iff.mp hc.once).append h.nodup fun _ hl hr => hd _ hr hl

/-! ## The lexer -/

/-- How the lexer, with the account of what it visits, reads `k` items at `bs`, next to the blocks
`F`: it builds a tree; it gives up, after exact clean-ups; it fails in `get_el_size`; or there is an
item that is unfit. -/
inductive Covers (x : Stray) (F : List (Nat × Cell)) (k : Nat) (bs : Bytes) :
    Except Fault ((Ptr × Trace) × World) → Prop
  | done (t : Lay false) (read : List Nat) (v : World) : t.shape.spoiled = false →
    read.Perm (t.ptrs x) → Owns v.heap (t.blocks x none none ++ F) → v.inp.length ≤ bs.length →
    (∀ P K, Meets P K v.inp → Meets P (k + K) bs) →
    Covers x F k bs (.ok ((some (t.ptr x), ⟨read, []⟩), v))
  | gaveUp (t : Trace) (v : World) : t.Exact → (∀ a ∈ t.read, a ∉ F.map Prod.fst) →
    Owns v.heap F → Covers x F k bs (.ok ((none, t), v))
  | long : (∀ K, Meets (tooLong ·) (k + K) bs) → Covers x F k bs (.error .outOfBounds)
  | unfit (r : Except Fault ((Ptr × Trace) × World)) : (∀ K, Meets (unfit ·) (k + K) bs) →
    Covers x F k bs r

section Covers

variable {x : Stray} {F : List (Nat × Cell)} {k : Nat} {bs : Bytes} {w : World}
  {r : Except Fault ((Ptr × Trace) × World)} {unset : World → Ptr}

/-- The items after the ones that were read. -/
theorem Covers.later {k' : Nat} {bs' : Bytes} (h : Covers x F k' bs' r)
    (hlen : bs'.length ≤ bs.length) (hm : ∀ P K, Meets P (k' + K) bs' → Meets P (k + K) bs) :
    Covers x F k bs r := by
  cases h with
  | done t read v hs hread ho hl hmeets =>
    exact .done t read v hs hread ho (hl.trans hlen) fun P K h => hm P K (hmeets P K h)
  | gaveUp t v ht hd ho => exact .gaveUp t v ht hd ho
  | long hlong => exact .long fun K => hm _ K (hlong K)
  | unfit r hunfit => exact .unfit r fun K => hm _ K (hunfit K)

/-- Giving up before anything was read. -/
theorem Covers.nothing (v : World) (ho : Owns v.heap F) :
    Covers x F k bs (.ok ((none, ⟨[], []⟩), v)) :=
  .gaveUp ⟨[], []⟩ v Trace.exact_nil (fun _ ha => absurd ha List.not_mem_nil) ho

/-- The way back through an array stays within it. -/
theorem back_subset (p n : Nat) (size : Int) (els : List (Lay false)) :
    ∀ a ∈ (els.map (Lay.ptr x)).reverse ++ [p],
      a ∈ (Lay.array p n size els : Lay false).ptrs x := by
  intro a ha
  rcases List.mem_append.mp ha with ha | ha
  · obtain ⟨e, he, rfl⟩ := List.mem_map.mp (List.mem_reverse.mp ha)
    exact List.mem_cons_of_mem _ (Lay.ptr_mem_ptrsList x he)
  · rw [List.mem_singleton.mp ha]
    exact List.mem_cons_self

/-- Giving up at a level, after what a nested call has read: `t`. -/
theorem Part.giveUpVisits {size : Int} {ts : List (Lay false)} {array previous : Ptr}
    {level : List Nat} {t : Trace} (hp : Part x w.heap F size ts array previous)
    (hc : Shape.spoiledList (Lay.shapes ts) = false)
    (hl : level.Perm (array.toList ++ Lay.ptrsList x ts)) (ht : t.Exact)
    (hlevel : ∀ a ∈ t.read, a ∉ array.toList ++ Lay.ptrsList x ts)
    (hF : ∀ a ∈ t.read, a ∉ F.map Prod.fst) :
    Covers x F k bs (RedisImpl.giveUpVisits previous level t w) := by
  have hread : ∀ a ∈ t.read, a ∉ level := fun a ha hm => hlevel a ha (hl.mem_iff.mp hm)
  cases hp with
  | start sn sp ho =>
    obtain rfl : level = [] := List.perm_nil.mp hl
    have hexact : CleanUp.Exact ⟨[], ⟨[], []⟩⟩ :=
      ⟨List.Perm.refl _, List.nodup_nil, fun a ha => absurd ha List.not_mem_nil⟩
    exact .gaveUp _ w (ht.giveUp hexact hread) hF ho
  | more ts l p n sn sp ho =>
    have hspoiled : (Lay.array p n size (ts ++ [l]) : Lay false).shape.spoiled = false := by
      rw [Lay.shape, Shape.spoiled, hc]
    have hback := rewindVisits_array ho
    rw [Lay.last_concat] at hback
    obtain ⟨h, hd, ho'⟩ := deleteArrayVisits_clean ho hback hspoiled
    obtain ⟨hn, hapart⟩ := Lay.ptrs_apart ho
    have hl' : level.Perm ((Lay.array p n size (ts ++ [l]) : Lay false).ptrs x) := hl
    have hrun : RedisImpl.giveUpVisits (some (l.ptr x)) level t w = _ := M.bind_ok hd
    rw [hrun]
    refine .gaveUp _ ⟨h, w.inp⟩ (ht.giveUp (c := ⟨level, _, _⟩) ⟨hl'.symm, hn, ?_⟩ hread) ?_ ho'
    · exact fun a ha => hl'.mem_iff.mpr (back_subset p n size (ts ++ [l]) a ha)
    · intro a ha
      rcases List.mem_append.mp ha with ha | ha
      · exact hapart a (hl'.mem_iff.mp ha)
      · exact hF a ha

/-- The two ways in which reading a bulk string is a fault. -/
theorem readBulk_eq_fault (hb : readBulk bs = .fault) :
    readSize bs = .long ∨ ∃ rest, readSize bs = .size (-1) rest := by
  unfold readBulk at hb
  cases hr : readSize bs with
  | bad =>
    rw [hr] at hb
    cases hb
  | long => exact .inl rfl
  | size n rest =>
    rw [hr] at hb
    simp only [] at hb
    split_ifs at hb with h2 h1
    · exact .inr ⟨rest, by rw [h1]⟩
    · split at hb <;> cases hb

/-- A bulk string. -/
theorem lexBulkStr_covers (heap : Heap Cell) (bs : Bytes) (ho : Owns heap F) :
    Covers x F 1 (36 :: bs)
      ((do let current ← lexBulkStr; return (current, ⟨current.toList, []⟩) : M (Ptr × Trace))
        ⟨heap, bs⟩) := by
  have hlex := lexBulkStr_refines (w := ⟨heap, bs⟩) false x ho
  cases hb : readBulk bs with
  | done b rest =>
    rw [hb] at hlex
    obtain ⟨p, n, c, h, hr, ho'⟩ := hlex
    rw [M.bind_ok hr]
    have hlt := readBulk_length hb
    refine .done (.bulk p n c b) [p] ⟨h, rest⟩ rfl (List.Perm.refl _) ho' ?_ ?_
    · simp only [List.length_cons]
      omega
    · intro P K hm
      have hskip : skipItem (36 :: bs) = some (0, rest) := by rw [skipItem_bulk, hb]
      refine .after hskip ?_
      rwa [Nat.zero_add]
  | reject =>
    rw [hb] at hlex
    obtain ⟨v, hr, ho'⟩ := hlex
    rw [M.bind_ok hr]
    exact .nothing v ho'
  | fault =>
    have hsize := getElSize_eq ⟨heap, bs⟩
    rcases readBulk_eq_fault hb with hlong | ⟨rest, hnil⟩
    · rw [show readSize (⟨heap, bs⟩ : World).inp = .long from hlong] at hsize
      have hrun : lexBulkStr ⟨heap, bs⟩ = .error .outOfBounds := M.bind_error hsize
      rw [M.bind_error hrun]
      exact .long (Meets.first (by rw [tooLong, hlong]))
    · exact .unfit _ (Meets.first (by rw [unfit, if_pos rfl, hnil]; rfl))

/-- An item, if `lexer` reads arrays. -/
theorem lexCurrentVisits_covers {lexer : M (Ptr × Trace)} {m : Nat}
    (hrec : ∀ v : World, v.inp.length < m → ∀ F, Owns v.heap F →
      Covers x F 1 (42 :: v.inp) (lexer v))
    (heap : Heap Cell) (c : UInt8) (bs : Bytes) (hbs : bs.length < m) (ho : Owns heap F) :
    Covers x F 1 (c :: bs) (lexCurrentVisits unset lexer c ⟨heap, bs⟩) := by
  unfold lexCurrentVisits
  by_cases hdollar : c = 36
  · subst hdollar
    rw [if_pos (show (36 : UInt8) = dollarByte from rfl)]
    exact lexBulkStr_covers heap bs ho
  rw [if_neg (show ¬ c = dollarByte from hdollar)]
  by_cases hstar : c = 42
  · subst hstar
    rw [if_pos (show (42 : UInt8) = asteriskByte from rfl)]
    exact hrec ⟨heap, bs⟩ hbs F ho
  · exact .unfit _ (Meets.first (by rw [unfit, if_neg hdollar, if_neg hstar]))

/-- An array that is there stays the same. -/
theorem linkElement_array {size : Int} {a : Nat} {previous current new : Ptr} {v : World}
    (h : linkElement size (some a) previous current w = .ok (new, v)) : new = some a := by
  obtain ⟨new', u, hnew, hrest⟩ := M.of_bind_ok h
  obtain ⟨-, u', -, hret⟩ := M.of_bind_ok hnew
  cases hret
  cases previous with
  | none =>
    cases hrest
    rfl
  | some q =>
    have hnext : (setNext (some q) current >>= fun _ => (pure (some a) : M Ptr)) u = .ok (new, v) :=
      hrest
    obtain ⟨-, u'', -, hret⟩ := M.of_bind_ok hnext
    cases hret
    rfl

/-- The records of the level, with one more element. -/
theorem level_perm {size : Int} {ts : List (Lay false)} {t : Lay false}
    {array previous new : Ptr} {level read : List Nat} {v : World}
    (hl : level.Perm (array.toList ++ Lay.ptrsList x ts)) (hread : read.Perm (t.ptrs x))
    (hlink : linkElement size array previous (some (t.ptr x)) w = .ok (new, v)) :
    (level ++ read ++ if array.isNone then new.toList else []).Perm
      (new.toList ++ Lay.ptrsList x (ts ++ [t])) := by
  have hptrs : Lay.ptrsList x (ts ++ [t]) = Lay.ptrsList x ts ++ t.ptrs x := by
    rw [Lay.ptrsList_append, Lay.ptrsList, Lay.ptrsList, List.append_nil]
  rw [hptrs]
  cases array with
  | none =>
    simp only [Option.isNone_none, if_true]
    exact ((hl.append hread).append_right _).trans List.perm_append_comm
  | some a =>
    obtain rfl := linkElement_array hlink
    simp only [Option.isNone_some, Bool.false_eq_true, if_false, List.append_nil]
    rw [← List.append_assoc]
    exact hl.append hread

/-- The loop, with the elements `ts` read. -/
theorem lexElementsVisits_covers {lexer : M (Ptr × Trace)} {m : Nat}
    (hrec : ∀ v : World, v.inp.length < m → ∀ F, Owns v.heap F →
      Covers x F 1 (42 :: v.inp) (lexer v))
    {size : Int} {left : Nat} {ts : List (Lay false)} {array previous : Ptr} {level : List Nat}
    (hw : w.inp.length ≤ m) (hk : 0 < left + ts.length)
    (hp : Part x w.heap F size ts array previous)
    (hc : Shape.spoiledList (Lay.shapes ts) = false)
    (hl : level.Perm (array.toList ++ Lay.ptrsList x ts)) :
    Covers x F left w.inp (lexElementsVisits unset lexer size left array previous level w) := by
  induction left generalizing w ts array previous level with
  | zero =>
    cases hp with
    | start sn sp ho => exact absurd hk (Nat.lt_irrefl 0)
    | more ts l p n sn sp ho =>
      -- all elements are there: what was read is what the tree holds
      refine .done (.array p n size (ts ++ [l])) level w ?_ hl ho (Nat.le_refl _) ?_
      · rw [Lay.shape, Shape.spoiled, hc]
      · intro P K hm
        rwa [Nat.zero_add]
  | succ left ih =>
    cases hi : w.inp with
    | nil =>
      have hrun : lexElementsVisits unset lexer size (left + 1) array previous level w =
          giveUpVisits previous level ⟨[], []⟩ w := M.bind_ok (readExactBytes_one_nil hi)
      rw [hrun]
      -- the end of the stream: nothing of the next element to free, so only what this level read
      exact hp.giveUpVisits hc hl Trace.exact_nil (fun a ha => absurd ha List.not_mem_nil)
        fun a ha => absurd ha List.not_mem_nil
    | cons c bs =>
      rw [hi, List.length_cons] at hw
      have hleft : ∀ K, left + 1 + K = 1 + (left + K) := by
        intro K
        omega
      obtain ⟨G, sn, sp, hG, hframe, hsub⟩ := hp.frame
      have hrun : lexElementsVisits unset lexer size (left + 1) array previous level w = (do
          let r ← lexCurrentVisits unset lexer c
          if r.1.isNone then giveUpVisits previous level r.2
          else
            let new ← linkElement size array previous r.1
            lexElementsVisits unset lexer size left new r.1
              (level ++ r.2.read ++ if array.isNone then new.toList else []) : M (Ptr × Trace))
          ⟨w.heap, bs⟩ := M.bind_ok (readExactBytes_one_cons hi)
      have hcur : Covers x G 1 (c :: bs) (lexCurrentVisits unset lexer c ⟨w.heap, bs⟩) :=
        lexCurrentVisits_covers hrec w.heap c bs (by omega) hG
      rw [hrun]
      generalize hr : lexCurrentVisits unset lexer c ⟨w.heap, bs⟩ = r at hcur
      cases hcur with
      | done t read v hs hread ho hlen hm =>
        obtain ⟨array', h', hlink, hp'⟩ := hframe.link v t sn sp ho
        rw [M.bind_ok hr]
        have hstep : (do
            let new ← linkElement size array previous (some (t.ptr x))
            lexElementsVisits unset lexer size left new (some (t.ptr x))
              (level ++ read ++ if array.isNone then new.toList else []) : M (Ptr × Trace)) v =
          lexElementsVisits unset lexer size left array' (some (t.ptr x))
            (level ++ read ++ if array.isNone then array'.toList else []) ⟨h', v.inp⟩ :=
          M.bind_ok hlink
        simp only [Option.isNone_some, Bool.false_eq_true, if_false]
        rw [hstep]
        rw [List.length_cons] at hlen
        refine Covers.later (ih (w := ⟨h', v.inp⟩) ?_ ?_ hp' ?_ ?_) hlen ?_
        · exact hlen.trans hw
        · rw [List.length_append, List.length_singleton]
          omega
        · have happend := Shape.flawedList_append false (Lay.shapes ts) (Lay.shapes [t])
          rw [← Lay.shapes_append] at happend
          simp only [Shape.flawedList_eq_spoiledList] at happend
          rw [happend, hc, Lay.shapes, Lay.shapes, Shape.spoiledList, Shape.spoiledList, hs]
          rfl
        · exact level_perm hl hread hlink
        · intro P K h
          rw [hleft]
          exact hm P (left + K) h
      | gaveUp t v ht hd ho =>
        -- the element has freed its own blocks, and the level frees the others
        rw [M.bind_ok hr]
        have hpart := hframe.back rfl v.heap ho
        refine hpart.giveUpVisits hc hl ht (fun a ha hmem => ?_) fun a ha hmem => ?_
        · exact hd a ha (hsub rfl a (.inl hmem))
        · exact hd a ha (hsub rfl a (.inr hmem))
      | long hlong =>
        rw [M.bind_error hr]
        exact .long fun K => by rw [hleft]; exact hlong (left + K)
      | unfit r hunfit =>
        exact .unfit _ fun K => by rw [hleft]; exact hunfit (left + K)

/-- `lexer`, on the array after the type byte. -/
theorem lexerLoopVisits_covers {fuel : Nat} (hf : w.inp.length < fuel) (ho : Owns w.heap F) :
    Covers x F 1 (42 :: w.inp) (lexerLoopVisits unset fuel w) := by
  induction fuel generalizing w F with
  | zero => exact absurd hf (Nat.not_lt_zero _)
  | succ fuel ih =>
    have hsize := getElSize_eq w
    cases hr : readSize w.inp with
    | bad =>
      rw [hr] at hsize
      obtain ⟨rest, hg⟩ := hsize
      have hrun : lexerLoopVisits unset (fuel + 1) w = .ok ((none, ⟨[], []⟩), ⟨w.heap, rest⟩) :=
        M.bind_ok hg
      rw [hrun]
      exact .nothing ⟨w.heap, rest⟩ ho
    | long =>
      rw [hr] at hsize
      have hrun : lexerLoopVisits unset (fuel + 1) w = .error .outOfBounds := M.bind_error hsize
      rw [hrun]
      exact .long (Meets.first (by rw [tooLong, hr]))
    | size n rest =>
      rw [hr] at hsize
      have hg : getElSize w = .ok (n, ⟨w.heap, rest⟩) := hsize
      have hlt := readSize_length hr
      by_cases h10 : n = -1 ∨ n = 0
      · -- an empty or nil array, which is no message of the domain
        refine .unfit _ (Meets.first ?_)
        rcases h10 with rfl | rfl <;>
        · rw [unfit, if_neg (by decide), if_pos rfl, hr]
          rfl
      obtain ⟨h1, h0⟩ := not_or.mp h10
      by_cases h2 : n = errInvChar
      · have hrun : lexerLoopVisits unset (fuel + 1) w =
            .ok ((none, ⟨[], []⟩), ⟨w.heap, rest⟩) := by
          refine (M.bind_ok hg).trans ?_
          rw [if_pos h2]
          rfl
        rw [hrun]
        exact .nothing ⟨w.heap, rest⟩ ho
      have hrun : lexerLoopVisits unset (fuel + 1) w =
          lexElementsVisits unset (lexerLoopVisits unset fuel) n (BitVec.ofInt 32 n).toNat none none
            [] ⟨w.heap, rest⟩ := by
        refine (M.bind_ok hg).trans ?_
        rw [if_neg h2]
        simp only [h1, h0, if_false]
      have hskip : skipItem (42 :: w.inp) = some ((BitVec.ofInt 32 n).toNat, rest) := by
        rw [skipItem_array, hr]
        simp only [h2, h1, if_false]
      have hpart : Part x w.heap F n ([] : List (Lay false)) none none := .start none none ho
      have helements : Covers x F (BitVec.ofInt 32 n).toNat rest
          (lexerLoopVisits unset (fuel + 1) w) := by
        rw [hrun]
        refine lexElementsVisits_covers (w := ⟨w.heap, rest⟩) (m := fuel) ?_ ?_ ?_ hpart rfl
          (List.Perm.refl _)
        · exact fun v hv F ho => ih hv ho
        · show rest.length ≤ fuel
          omega
        · have := readSize_count_pos hr h0
          omega
      refine helements.later ?_ fun P K hm => ?_
      · simp only [List.length_cons]
        omega
      · exact .after hskip hm

end Covers

/-- What was in memory is still there. -/
def Kept (w v : World) : Prop := ∀ a c, w.heap.load a = some c → v.heap.load a = some c

/-- The clean-ups of a run of `lexer` from `w`, and of the tree that it returns. -/
structure CleansUp (unset : World → Ptr) (w : World) : Prop where
  /-- Where the lexer gives up, the clean-ups on the way out are exact. -/
  gaveUp : ∀ t v, lexerVisits unset w = .ok ((none, t), v) →
    lexer unset w = .ok (none, v) ∧ t.Exact ∧ Kept w v
  /-- A tree is printed, and then cleaned up, whatever happens in between to other memory. -/
  finished : ∀ array t v, lexerVisits unset w = .ok ((some array, t), v) →
    lexer unset w = .ok (some array, v) ∧ t.cleanUps = [] ∧ Kept w v ∧
      printArray (some array) v = .ok ((), v) ∧
      ∀ u, (∀ a c, w.heap.load a = none → v.heap.load a = some c → u.heap.load a = some c) →
        ∃ visits u', deleteArrayVisits (some array) u = .ok (visits, u') ∧
          deleteArray (some array) u = .ok ((), u') ∧ CleanUp.Exact ⟨t.read, visits⟩
  /-- The lexer comes to its end, unless a size is too long for `get_el_size`. -/
  failed : ∀ e, lexerVisits unset w = .error e →
    lexer unset w = .error e ∧ e = .outOfBounds ∧ Meets (tooLong ·) 1 (42 :: w.inp)

section CleansUp

variable {w u v : World} {x : Stray} {t : Lay false} {F : List (Nat × Cell)}

/-- The blocks of a tree that was built next to all that was there. -/
theorem owns_built (hF : ∀ a c, w.heap.load a = some c → (a, c) ∈ F)
    (ho : Owns v.heap (t.blocks x none none ++ F))
    (hu : ∀ a c, w.heap.load a = none → v.heap.load a = some c → u.heap.load a = some c) :
    Owns u.heap (t.blocks x none none ++ []) := by
  have hn := ho.nodup
  rw [List.map_append] at hn
  obtain ⟨-, -, hd⟩ := List.nodup_append.mp hn
  rw [List.append_nil]
  refine ⟨ho.left.nodup, fun b hb => hu b.1 b.2 ?_ (ho.left.load b hb)⟩
  cases hl : w.heap.load b.1 with
  | none => rfl
  | some c =>
    have hframe : b.1 ∈ F.map Prod.fst := List.mem_map.mpr ⟨(b.1, c), hF b.1 c hl, rfl⟩
    exact absurd rfl (hd b.1 (List.mem_map_of_mem hb) b.1 hframe)

/-- Deleting a finished tree. -/
theorem deleteArrayVisits_exact {read : List Nat} (ho : Owns u.heap (t.blocks x none none ++ F))
    (hc : t.shape.spoiled = false) (hread : read.Perm (t.ptrs x)) :
    ∃ visits u', deleteArrayVisits (some (t.ptr x)) u = .ok (visits, u') ∧
      deleteArray (some (t.ptr x)) u = .ok ((), u') ∧ CleanUp.Exact ⟨read, visits⟩ := by
  obtain ⟨h, hd, -⟩ := deleteArrayVisits_root ho hc
  refine ⟨_, _, hd, deleteArray_of_visits hd, hread.symm, (Lay.ptrs_apart ho).1, ?_⟩
  intro a ha
  rw [List.mem_singleton.mp ha]
  exact hread.mem_iff.mpr (Lay.ptr_mem_ptrs x t)

/-- For every request of non-empty arrays and non-nil bulk strings, all of it or cut anywhere. -/
theorem lexer_cleansUp (unset : World → Ptr) (heap : Heap Cell) (bs : Bytes)
    (h : ¬ Meets (unfit ·) 1 (42 :: bs)) : CleansUp unset ⟨heap, bs⟩ := by
  obtain ⟨F, hF, hall⟩ := Owns.exists_all heap
  have hcovers : Covers ⟨0, 0⟩ F 1 (42 :: bs) (lexerVisits unset ⟨heap, bs⟩) :=
    lexerLoopVisits_covers (w := ⟨heap, bs⟩) (Nat.lt_succ_self _) hF
  have hlexer : lexer unset ⟨heap, bs⟩ =
      (lexerVisits unset ⟨heap, bs⟩).map fun r => (r.1.1, r.2) := by
    rw [← lexerVisits_erase, map_run]
  have hkept : ∀ v : World, Owns v.heap F → Kept ⟨heap, bs⟩ v :=
    fun v ho a c hl => ho.load _ (hall a c hl)
  generalize hr : lexerVisits unset ⟨heap, bs⟩ = r at hcovers hlexer
  refine ⟨fun t v he => ?_, fun array t v he => ?_, fun e he => ?_⟩
  · obtain rfl := hr.symm.trans he
    cases hcovers with
    | gaveUp t v ht _ ho => exact ⟨hlexer, ht, hkept v ho⟩
    | unfit r hunfit => exact absurd (hunfit 0) h
  · obtain rfl := hr.symm.trans he
    cases hcovers with
    | done t read v hs hread ho _ _ =>
      refine ⟨hlexer, rfl, hkept v ho.right, printArray_lay ho hs, fun u hu => ?_⟩
      exact deleteArrayVisits_exact (owns_built hall ho hu) hs hread
    | unfit r hunfit => exact absurd (hunfit 0) h
  · obtain rfl := hr.symm.trans he
    cases hcovers with
    | long hlong => exact ⟨hlexer, rfl, hlong 0⟩
    | unfit r hunfit => exact absurd (hunfit 0) h

/-- Two levels deep, cut after the first element of the second. -/
theorem lexer_cleansUp_cut :
    CleansUp (fun _ => none) ⟨Heap.empty, ascii "2\r\n$1\r\na\r\n*2\r\n$1\r\nb\r\n"⟩ := by
  let inner : Node := .array 2 [.bulk (ascii "b"), .bulk (ascii "c")]
  have hr : (Node.array 2 [.bulk (ascii "a"), inner]).Request := by
    simp [inner, Node.Request, Node.RequestList, ascii]
  have hb : (Node.array 2 [.bulk (ascii "a"), inner]).encode.tail =
      ascii "2\r\n$1\r\na\r\n*2\r\n$1\r\nb\r\n" ++ ascii "$1\r\nc\r\n" := by
    decide
  refine lexer_cleansUp (fun _ => none) Heap.empty _ fun hm => ?_
  exact unbroken_of_cut hr hb (hm.mono fun bs => broken_of_unfit)

/-- On a part of a request, wherever it is cut, the lexer does return. -/
theorem lexer_returns_cut {size : Int} {els : List Node} (hr : (Node.array size els).Request)
    {bs more : Bytes} (hb : (Node.array size els).encode.tail = bs ++ more) (unset : World → Ptr)
    (heap : Heap Cell) : ∃ r, lexer unset ⟨heap, bs⟩ = .ok r := by
  have hunbroken := unbroken_of_cut hr hb
  have hcovers : Covers ⟨0, 0⟩ [] 1 (42 :: bs) (lexerVisits unset ⟨heap, bs⟩) :=
    lexerLoopVisits_covers (w := ⟨heap, bs⟩) (Nat.lt_succ_self _) (Owns.nil heap)
  rw [← lexerVisits_erase, map_run]
  generalize lexerVisits unset ⟨heap, bs⟩ = r at hcovers
  cases hcovers with
  | done t read v => exact ⟨_, rfl⟩
  | gaveUp t v => exact ⟨_, rfl⟩
  | long hlong => exact absurd ((hlong 0).mono fun bs => broken_of_tooLong) hunbroken
  | unfit r hunfit => exact absurd ((hunfit 0).mono fun bs => broken_of_unfit) hunbroken

end CleansUp

end RedisImpl
