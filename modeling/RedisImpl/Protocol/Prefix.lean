import RedisImpl.Protocol.Quiet
import RedisImpl.Protocol.Refine

/-!
# A socket that fails, and a client that stops sending

What the reader does on a socket where `recv` fails or comes short, it does on a part of the input,
as if the client had not sent more (`lexer_acts`).

`Acts m d broken x' x`: the computation `x'` on the socket is, on inputs shorter than `m`, one of
two things. Either it took some bytes, `d` at least, and `x` does the same with these bytes and any
others behind them; or its result is one of those for `broken`, and `x` has this result on some
beginning of the input. The computation `x` has a parameter, a bound for the length of its input.

After a broken one nothing is read from the socket: `GivesUp`.
-/

namespace RedisImpl
namespace Recv

variable {α β : Type}

/-- The result `r` of a run from `s`, and what `x` does (module doc). -/
def Does (d : Nat) (broken : α → Prop) (s : Sock) (r : Except Fault (α × Sock)) (x : Nat → M α) :
    Prop :=
  match r with
  | .ok (a, s') =>
    (∃ c, d ≤ c.length ∧ s.world.inp = c ++ s'.world.inp ∧ ∀ f r, (c ++ r).length < f →
      x f ⟨s.world.heap, c ++ r⟩ = .ok (a, ⟨s'.world.heap, r⟩)) ∨
    (broken a ∧ ∃ c, c <+: s.world.inp ∧ ∀ f, c.length < f →
      x f ⟨s.world.heap, c⟩ = .ok (a, ⟨s'.world.heap, []⟩))
  | .error e => ∃ c, c <+: s.world.inp ∧ ∀ f, c.length < f → x f ⟨s.world.heap, c⟩ = .error e

def Acts (m d : Nat) (broken : α → Prop) (x' : SockM α) (x : Nat → M α) : Prop :=
  ∀ s : Sock, s.world.inp.length < m → Does d broken s (x' s) x

/-- `x'` does not read from the socket, its result is one for `broken`, and `x` has this result at the
end of the input. -/
def GivesUp (broken : α → Prop) (x' : SockM α) (x : Nat → M α) : Prop :=
  ∀ s : Sock,
    match x' s with
    | .ok (a, s') => broken a ∧ ∀ f, x f ⟨s.world.heap, []⟩ = .ok (a, ⟨s'.world.heap, []⟩)
    | .error e => ∀ f, x f ⟨s.world.heap, []⟩ = .error e

namespace SockM

variable {s s' : Sock}

theorem bind_ok {x : SockM α} {f : α → SockM β} {a : α} (h : x s = .ok (a, s')) :
    (x >>= f) s = f a s' := by
  show (x s >>= fun p => f p.1 p.2) = f a s'
  rw [h]
  rfl

theorem bind_error {x : SockM α} {f : α → SockM β} {e : Fault} (h : x s = .error e) :
    (x >>= f) s = .error e := by
  show (x s >>= fun p => f p.1 p.2) = .error e
  rw [h]
  rfl

theorem lift_ok {x : M α} {a : α} {w : World} (h : x s.world = .ok (a, w)) :
    lift x s = .ok (a, { s with world := w }) := by
  rw [lift, h]
  rfl

theorem lift_error {x : M α} {e : Fault} (h : x s.world = .error e) : lift x s = .error e := by
  rw [lift, h]
  rfl

end SockM

/-! ## Rules -/

section Rules

variable {m m' d e : Nat} {broken : α → Prop} {broken' : β → Prop} {x' : SockM α} {x y : Nat → M α}
  {k' : α → SockM β} {k : α → Nat → M β}

theorem Does.le {s : Sock} {r : Except Fault (α × Sock)} (h : Does d broken s r x) (he : e ≤ d) :
    Does e broken s r x := by
  cases r with
  | error e => exact h
  | ok p =>
    rcases h with ⟨c, hd, hc, hrun⟩ | hb
    · exact .inl ⟨c, Nat.le_trans he hd, hc, hrun⟩
    · exact .inr hb

theorem Acts.mono (h : Acts m d broken x' x) (hm : m' ≤ m) (he : e ≤ d) : Acts m' e broken x' x :=
  fun s hs => (h s (Nat.lt_of_lt_of_le hs hm)).le he

/-- Only the values of `x` at positive bounds count. -/
theorem Does.congr {s : Sock} {r : Except Fault (α × Sock)} (h : Does d broken s r x)
    (hxy : ∀ f, x (f + 1) = y (f + 1)) : Does d broken s r y := by
  have hpos {f n : Nat} (hf : n < f) : x f = y f := by
    obtain ⟨g, rfl⟩ : ∃ g, f = g + 1 := ⟨f - 1, by omega⟩
    exact hxy g
  cases r with
  | error e =>
    obtain ⟨c, hc, hrun⟩ := h
    exact ⟨c, hc, fun f hf => hpos hf ▸ hrun f hf⟩
  | ok p =>
    rcases h with ⟨c, hd, hc, hrun⟩ | ⟨hb, c, hc, hrun⟩
    · exact .inl ⟨c, hd, hc, fun f r hf => hpos hf ▸ hrun f r hf⟩
    · exact .inr ⟨hb, c, hc, fun f hf => hpos hf ▸ hrun f hf⟩

/-- A computation that takes its bound from its input. -/
theorem Does.at_length {s : Sock} {r : Except Fault (α × Sock)} {z : M α} (h : Does d broken s r x)
    (hz : ∀ w, z w = x (w.inp.length + 1) w) : Does d broken s r fun _ => z := by
  cases r with
  | error e =>
    obtain ⟨c, hc, hrun⟩ := h
    exact ⟨c, hc, fun _ _ => (hz _).trans (hrun _ (Nat.lt_succ_self _))⟩
  | ok p =>
    rcases h with ⟨c, hd, hc, hrun⟩ | ⟨hb, c, hc, hrun⟩
    · exact .inl ⟨c, hd, hc, fun _ r _ => (hz _).trans (hrun _ r (Nat.lt_succ_self _))⟩
    · exact .inr ⟨hb, c, hc, fun _ _ => (hz _).trans (hrun _ (Nat.lt_succ_self _))⟩

theorem Acts.congr (h : Acts m d broken x' x) (hxy : ∀ f, x (f + 1) = y (f + 1)) :
    Acts m d broken x' y :=
  fun s hs => (h s hs).congr hxy

theorem Acts.lift {z : M α} (hz : Quiet z) : Acts m 0 broken (lift z) fun _ => z := by
  intro s _
  obtain ⟨r, hr, hr'⟩ := hz s.world.heap s.world.inp
  cases r with
  | error e =>
    rw [SockM.lift_error hr]
    exact ⟨[], List.nil_prefix, fun _ _ => hr' []⟩
  | ok p =>
    rw [SockM.lift_ok hr]
    exact .inl ⟨[], Nat.le_refl 0, rfl, fun _ r _ => hr' r⟩

protected theorem Acts.pure (a : α) : Acts m 0 broken (pure a) fun _ => pure a :=
  fun _ _ => .inl ⟨[], Nat.le_refl 0, rfl, fun _ _ _ => rfl⟩

protected theorem Acts.throw (e : Fault) : Acts m d broken (throw e) fun _ => throw e :=
  fun _ _ => ⟨[], List.nil_prefix, fun _ _ => rfl⟩

protected theorem Acts.ite {p : Prop} [Decidable p] {y' : SockM α} (hx : p → Acts m d broken x' x)
    (hy : ¬ p → Acts m d broken y' y) :
    Acts m d broken (if p then x' else y') fun f => if p then x f else y f := by
  by_cases hp : p
  · simp only [if_pos hp]
    exact hx hp
  · simp only [if_neg hp]
    exact hy hp

/-- What follows after the bytes `c` were taken. They count for the bound. -/
theorem Does.after {s s₁ : Sock} {c : Bytes} {a : α} {r : Except Fault (β × Sock)}
    (hk : Does e broken' s₁ r (k a)) (hd : d ≤ c.length) (hc : s.world.inp = c ++ s₁.world.inp)
    (hrun : ∀ f r, (c ++ r).length < f →
      x f ⟨s.world.heap, c ++ r⟩ = .ok (a, ⟨s₁.world.heap, r⟩)) :
    Does (d + e) broken' s r fun f => x f >>= fun a => k a (f - d) := by
  have hpre {c₁ : Bytes} (h : c₁ <+: s₁.world.inp) : c ++ c₁ <+: s.world.inp := by
    rw [hc]
    exact (List.prefix_append_right_inj c).mpr h
  have hlt {c₁ : Bytes} {f : Nat} (h : (c ++ c₁).length < f) : c₁.length < f - d := by
    rw [List.length_append] at h
    omega
  have hstep {c₁ : Bytes} {f : Nat} (h : (c ++ c₁).length < f) :
      (x f >>= fun a => k a (f - d)) ⟨s.world.heap, c ++ c₁⟩ =
        k a (f - d) ⟨s₁.world.heap, c₁⟩ :=
    M.bind_ok (hrun f c₁ h)
  cases r with
  | error e =>
    obtain ⟨c₁, hc₁, hrun₁⟩ := hk
    exact ⟨c ++ c₁, hpre hc₁, fun f hf => (hstep hf).trans (hrun₁ (f - d) (hlt hf))⟩
  | ok q =>
    obtain ⟨b, s₂⟩ := q
    rcases hk with ⟨c₁, he, hc₁, hrun₁⟩ | ⟨hb, c₁, hc₁, hrun₁⟩
    · refine .inl ⟨c ++ c₁, ?_, ?_, fun f r hf => ?_⟩
      · rw [List.length_append]
        omega
      · rw [hc, hc₁, List.append_assoc]
      · rw [List.append_assoc] at hf ⊢
        exact (hstep hf).trans (hrun₁ (f - d) r (hlt hf))
    · exact .inr ⟨hb, c ++ c₁, hpre hc₁, fun f hf => (hstep hf).trans (hrun₁ (f - d) (hlt hf))⟩

/-- What follows when the input is over, for `x`, after the bytes `c`. -/
theorem GivesUp.does {s s₁ : Sock} {c : Bytes} {a : α} {y' : SockM β} (hs : GivesUp broken' y' (k a))
    (hc : c <+: s.world.inp) (hrun : ∀ f, c.length < f →
      x f ⟨s.world.heap, c⟩ = .ok (a, ⟨s₁.world.heap, []⟩)) :
    Does e broken' s (y' s₁) fun f => x f >>= fun a => k a (f - d) := by
  have hs := hs s₁
  cases hr₁ : y' s₁ with
  | error e =>
    rw [hr₁] at hs
    exact ⟨c, hc, fun f hf => (M.bind_ok (hrun f hf)).trans (hs (f - d))⟩
  | ok q =>
    rw [hr₁] at hs
    exact .inr ⟨hs.1, c, hc, fun f hf => (M.bind_ok (hrun f hf)).trans (hs.2 (f - d))⟩

protected theorem Acts.bind (hx : Acts (m + d) d broken x' x) (hk : ∀ a, Acts m e broken' (k' a) (k a))
    (hs : ∀ a, broken a → GivesUp broken' (k' a) (k a)) :
    Acts (m + d) (d + e) broken' (x' >>= k') fun f => x f >>= fun a => k a (f - d) := by
  intro s hlen
  have hx := hx s hlen
  cases hr : x' s with
  | error e =>
    rw [hr] at hx
    rw [SockM.bind_error hr]
    obtain ⟨c, hc, hrun⟩ := hx
    exact ⟨c, hc, fun f hf => M.bind_error (hrun f hf)⟩
  | ok p =>
    obtain ⟨a, s₁⟩ := p
    rw [hr] at hx
    rw [SockM.bind_ok hr]
    rcases hx with ⟨c, hd, hc, hrun⟩ | ⟨hb, c, hc, hrun⟩
    · have hlen₁ : s₁.world.inp.length < m := by
        rw [hc, List.length_append] at hlen
        omega
      exact (hk a s₁ hlen₁).after hd hc hrun
    · exact (hs a hb).does hc hrun

/-- Without a bound. -/
theorem Acts.then {z : M α} {k : α → M β} (hx : Acts m 0 broken x' fun _ => z)
    (hk : ∀ a, Acts m 0 broken' (k' a) fun _ => k a)
    (hs : ∀ a, broken a → GivesUp broken' (k' a) fun _ => k a) :
    Acts m 0 broken' (x' >>= k') fun _ => z >>= k :=
  Acts.bind (d := 0) (e := 0) hx hk hs

/-- What follows on a computation on the heap. -/
theorem Acts.lift_bind {z : M α} (hz : Quiet z) (hk : ∀ a, Acts m e broken' (k' a) (k a)) :
    Acts m e broken' (Recv.lift z >>= k') fun f => z >>= fun a => k a f := by
  intro s hs
  obtain ⟨r, hr, hr'⟩ := hz s.world.heap s.world.inp
  cases r with
  | error e =>
    rw [SockM.bind_error (SockM.lift_error hr)]
    exact ⟨[], List.nil_prefix, fun _ _ => M.bind_error (hr' [])⟩
  | ok p =>
    rw [SockM.bind_ok (SockM.lift_ok hr)]
    have hdoes := (hk p.1 ⟨⟨p.2, s.world.inp⟩, s.calls⟩ hs).after (s := s) (d := 0) (c := [])
      (x := fun _ => z) (Nat.zero_le _) rfl fun _ r _ => hr' r
    rw [Nat.zero_add] at hdoes
    exact hdoes

protected theorem GivesUp.pure {a : α} (ha : broken a) : GivesUp broken (pure a) fun _ => pure a :=
  fun _ => ⟨ha, fun _ => rfl⟩

/-- A computation on the heap whose result is one for `broken`. -/
theorem GivesUp.lift {z : M α} (hz : Quiet z) (hb : ∀ w v a, z w = .ok (a, v) → broken a) :
    GivesUp broken (lift z) fun _ => z := by
  intro s
  obtain ⟨r, hr, hr'⟩ := hz s.world.heap s.world.inp
  cases r with
  | error e =>
    rw [SockM.lift_error hr]
    exact fun _ => hr' []
  | ok p =>
    rw [SockM.lift_ok hr]
    exact ⟨hb _ _ _ hr, fun _ => hr' []⟩

end Rules

/-! ## `read_exact_bytes` and `is_valid_terminator` -/

section Read

variable (env : RecvEnv)

/-- What comes back from a `recv` of `size` bytes that did not fail, if the input was `inp`. -/
def Received (size : Nat) (inp got rest : Bytes) : Prop :=
  ∃ n, n ≤ size ∧ got = inp.take n ∧ rest = inp.drop n

theorem recv_spec (size : Nat) (s : Sock) :
    (∃ errno k, recv env size s = .ok (.error errno, ⟨s.world, k⟩)) ∨
      ∃ got rest k, recv env size s = .ok (.ok got, ⟨⟨s.world.heap, rest⟩, k⟩) ∧
        Received size s.world.inp got rest := by
  unfold recv
  cases env.recv s.calls with
  | error errno => exact .inl ⟨errno, _, rfl⟩
  | received n => exact .inr ⟨_, _, _, rfl, min n size, Nat.min_le_right n size, rfl, rfl⟩

theorem recvLoop_spec (size left : Nat) (errno : Errno) (s : Sock) :
    (∃ k, recvLoop env size left errno s = .ok (none, ⟨s.world, k⟩)) ∨
      ∃ got rest k, recvLoop env size left errno s = .ok (some got, ⟨⟨s.world.heap, rest⟩, k⟩) ∧
        Received size s.world.inp got rest := by
  induction left generalizing errno s with
  | zero => exact .inl ⟨s.calls, rfl⟩
  | succ left ih =>
    have hget : (get : SockM Sock) s = .ok (s, s) := rfl
    rw [recvLoop, SockM.bind_ok hget]
    split_ifs
    · exact .inl ⟨s.calls, rfl⟩
    · exact .inl ⟨s.calls, rfl⟩
    · rcases recv_spec env size s with ⟨errno', k, hr⟩ | ⟨got, rest, k, hr, hgot⟩
      · rw [SockM.bind_ok hr]
        exact ih errno' ⟨s.world, k⟩
      · rw [SockM.bind_ok hr]
        exact .inr ⟨got, rest, k, rfl, hgot⟩

theorem recvRespFmClnt_spec (size nRetries : Nat) (s : Sock) :
    (∃ k, recvRespFmClnt env size nRetries s = .ok (none, ⟨s.world, k⟩)) ∨
      ∃ got rest k,
        recvRespFmClnt env size nRetries s = .ok (some got, ⟨⟨s.world.heap, rest⟩, k⟩) ∧
          Received size s.world.inp got rest := by
  unfold recvRespFmClnt
  rcases recv_spec env size s with ⟨errno, k, hr⟩ | ⟨got, rest, k, hr, hgot⟩
  · rw [SockM.bind_ok hr]
    exact recvLoop_spec env size nRetries errno ⟨s.world, k⟩
  · rw [SockM.bind_ok hr]
    exact .inr ⟨got, rest, k, rfl, hgot⟩

/-- It returns 1 with all of the bytes, or it returns 0 or -1. -/
theorem readExactBytes_spec (len : Nat) (s : Sock) :
    (∃ got rest k, readExactBytes env len s = .ok ((1, got), ⟨⟨s.world.heap, rest⟩, k⟩) ∧
        got.length = len ∧ s.world.inp = got ++ rest) ∨
      ∃ rtn got rest k, readExactBytes env len s = .ok ((rtn, got), ⟨⟨s.world.heap, rest⟩, k⟩) ∧
        (rtn = 0 ∨ rtn = -1) := by
  unfold readExactBytes
  rcases recvRespFmClnt_spec env len 3 s with ⟨k, hr⟩ | ⟨got, rest, k, hr, n, hn, hgot, hrest⟩
  · rw [SockM.bind_ok hr]
    exact .inr ⟨-1, [], s.world.inp, k, rfl, .inr rfl⟩
  · rw [SockM.bind_ok hr]
    simp only []
    split_ifs with hzero hshort
    · exact .inr ⟨0, got, rest, k, rfl, .inl rfl⟩
    · exact .inr ⟨0, got, rest, k, rfl, .inl rfl⟩
    · refine .inl ⟨got, rest, k, rfl, ?_, ?_⟩
      · have hle : got.length ≤ n := by
          rw [hgot]
          exact List.length_take_le n _
        omega
      · rw [hgot, hrest, List.take_append_drop]

/-- What follows on bytes that were read, or on none. -/
theorem Acts.read {m d len : Nat} (hlen : 0 < len) {broken : β → Prop} {k' : Int × Bytes → SockM β}
    {k : Option Bytes → Nat → M β} (hk : ∀ c, Acts m d broken (k' (1, c)) (k (some c)))
    (hs : ∀ rtn c, rtn = 0 ∨ rtn = -1 → GivesUp broken (k' (rtn, c)) (k none)) :
    Acts m d broken (readExactBytes env len >>= k')
      fun f => RedisImpl.readExactBytes len >>= fun o => k o f := by
  intro s hm
  rcases readExactBytes_spec env len s with ⟨got, rest, n, hr, hgot, hinp⟩ |
    ⟨rtn, got, rest, n, hr, hrtn⟩
  · rw [SockM.bind_ok hr]
    have hread (r : Bytes) : RedisImpl.readExactBytes len ⟨s.world.heap, got ++ r⟩ =
        .ok (some got, ⟨s.world.heap, r⟩) := by
      rw [readExactBytes_ok hlen (by simp [hgot])]
      simp [← hgot]
    have hrest : rest.length < m := by
      rw [hinp, List.length_append] at hm
      omega
    have hdoes := (hk got ⟨⟨s.world.heap, rest⟩, n⟩ hrest).after (d := 0) (Nat.zero_le _) hinp
      (x := fun _ => RedisImpl.readExactBytes len) fun _ r _ => hread r
    rw [Nat.zero_add] at hdoes
    exact hdoes
  · rw [SockM.bind_ok hr]
    have hread : RedisImpl.readExactBytes len ⟨s.world.heap, []⟩ =
        .ok (none, ⟨(⟨⟨s.world.heap, rest⟩, n⟩ : Sock).world.heap, []⟩) := by
      rw [readExactBytes_short (w := ⟨s.world.heap, []⟩) hlen, List.drop_nil]
    exact GivesUp.does (x := fun _ => RedisImpl.readExactBytes len) (d := 0) (hs rtn got hrtn)
      List.nil_prefix fun _ _ => hread

theorem isValidTerminator_acts {m : Nat} :
    Acts m 0 (· = false) (isValidTerminator env) fun _ => RedisImpl.isValidTerminator := by
  refine Acts.read env Nat.one_pos (k := fun o _ => if o ≠ some [13] then pure false
    else RedisImpl.readExactBytes 1 >>= fun o => pure (decide (o = some [10])))
    (fun c => ?_) fun rtn c hrtn => ?_
  · by_cases hc : c = [13]
    · simp only [hc]
      refine Acts.read env Nat.one_pos (k := fun o _ => pure (decide (o = some [10])))
        (fun c => ?_) fun rtn c hrtn => ?_
      · simpa using Acts.pure _
      · simp only [hrtn, if_true, reduceCtorEq, decide_false]
        exact GivesUp.pure rfl
    · simpa [hc] using Acts.pure _
  · simp only [hrtn, if_true, ne_eq, reduceCtorEq, not_false_eq_true]
    exact GivesUp.pure rfl

end Read

end Recv
end RedisImpl
