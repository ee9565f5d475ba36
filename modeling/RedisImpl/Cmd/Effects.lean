import RedisImpl.Cmd.Agreement
import RedisImpl.Cmd.Lifetime

/-!
# What SET and GET do

The ways in which `handle_set_cmd` and `handle_get_cmd` end, for any arguments and whichever
allocations fail.

* `handleSetCmd_cases`: the arguments are those of a command, or the answer is NULL.
* `handleSetCmd_plain`: without NX, XX and GET, `execute_set_basic` runs (`executeSetBasic_eq`).
* `SetEffect`, `GetEffect`: the other commands, and GET. NULL is answered without a `set`, but for a
  `set` that failed.
* `handleSetCmd_old`, `handleSetCmd_noGet`, `handleGetCmd_reply`: which replies quote a value of the
  store, and which value.
-/

namespace RedisImpl

open SimpleMap

/-! ## The requests -/

/-- The requests that SET carries out. -/
def SetCommand.Runs (c : SetCommand) : Prop := c.Supported ∧ c.key ≠ [] ∧ c.value ≠ []

/-- The others are answered with NULL. -/
theorem handleSetCmd_cases (node : List Node) :
    (∃ c : SetCommand, node = c.args ∧ c.Runs) ∨
      ∀ now ra sm, handleSetCmd now ra node sm = (none, sm) := by
  cases hv : validateSetCmd node with
  | none =>
    right
    intro now ra sm
    rw [handleSetCmd, hv]
  | some r =>
    obtain ⟨c, rfl, -⟩ := (validateSetCmd_eq_some node r).mp hv
    by_cases he : c.key = [] ∨ c.value = []
    · exact .inr fun now ra sm => handleSetCmd_empty now ra he sm
    · by_cases hs : c.Supported
      · rw [not_or] at he
        exact .inl ⟨c, rfl, hs, he⟩
      · exact .inr fun now ra sm => handleSetCmd_unsupported now ra hs sm

/-- SET without NX, XX and GET. -/
def SetCommand.Plain (c : SetCommand) : Prop := c.nxxx = none ∧ c.get = none

section Basic

variable {c : SetCommand} {now : Timespec} {ra : Realloc} {sm : Store}

theorem handleSetCmd_plain (hp : c.Plain) (hk : c.key ≠ []) (hv : c.value ≠ []) :
    handleSetCmd now ra c.args sm = executeSetBasic ra sm
      ⟨((c.entry now).nodes c.key).1, ((c.entry now).nodes c.key).2⟩ := by
  rw [handleSetCmd_args, executeSetCmd_eq now ra hk hv, hp.1, hp.2]
  obtain ⟨k, v, nxxx, get, time⟩ := c
  obtain ⟨rfl, rfl⟩ := hp
  cases time with
  | none => rfl
  | some t =>
    refine (executeSetExPxExatPxat_timedSet now ra sm).trans ?_
    split
    · rfl
    · rename_i hcheck
      rw [executeSetBasic_eq, if_neg hcheck]

end Basic

/-! ## SET with NX, XX or GET -/

/-- What such a SET answers from the store `sm`, and the store that it leaves. -/
inductive SetEffect (ra : Realloc) (sm : Store) : Option Bytes × Store → Prop
  | refused : SetEffect ra sm (none, sm)
  | kept {r : Bytes} : IsReply r → SetEffect ra sm (some r, sm)
  | wrote {r : Bytes} (kvp : KeyValuePair KeyNode ValueNode) :
      IsReply r → SetEffect ra sm (some r, (sm.set ra kvp compare).2.1)
  | failed (kvp : KeyValuePair KeyNode ValueNode) :
      (sm.set ra kvp compare).1 = .errorSetSmRtn →
        SetEffect ra sm (none, (sm.set ra kvp compare).2.1)

/-- The store that a handler leaves: the one it found, or that after a `set`. -/
def Wrote (ra : Realloc) (sm sm' : Store) : Prop :=
  sm' = sm ∨ ∃ kvp, sm' = (sm.set ra kvp compare).2.1

section Effect

variable {ra : Realloc} {sm : Store} {kvp : KeyValuePair KeyNode ValueNode} {parsedCmd : ParsedCmd}

theorem SetEffect.wrote_snd {x : Option Bytes × Store} (h : SetEffect ra sm x) :
    Wrote ra sm x.2 := by
  cases h with
  | refused => exact .inl rfl
  | kept => exact .inl rfl
  | wrote kvp => exact .inr ⟨kvp, rfl⟩
  | failed kvp => exact .inr ⟨kvp, rfl⟩

theorem SetEffect.isReply {x : Option Bytes × Store} (h : SetEffect ra sm x) {r : Bytes}
    (hr : x.1 = some r) : IsReply r := by
  cases h with
  | refused => cases hr
  | kept hreply => exact Option.some.inj hr ▸ hreply
  | wrote kvp hreply => exact Option.some.inj hr ▸ hreply
  | failed kvp => cases hr

theorem isReply_ok : IsReply ok := .inl rfl

theorem isReply_nil : IsReply nil := .inr (.inl rfl)

theorem isReply_oldValueReply (old : Option (KeyValuePair KeyNode ValueNode)) :
    IsReply (oldValueReply old) := by
  unfold oldValueReply
  split
  · exact isReply_nil
  · split
    · exact .inr (.inr ⟨_, rfl⟩)
    · exact isReply_nil

theorem executeSetGet_effect : SetEffect ra sm (executeSetGet ra sm kvp) := by
  unfold executeSetGet
  split
  · exact .refused
  · have hwrote {r : Bytes} (h : IsReply r) :
        SetEffect ra sm (some r, (sm.set ra kvp compare).2.1) := .wrote kvp h
    have hfailed : (sm.set ra kvp compare).1 = .errorSetSmRtn →
        SetEffect ra sm (none, (sm.set ra kvp compare).2.1) := .failed kvp
    split <;> rename_i hs <;> rw [hs] at hwrote hfailed
    · exact hfailed rfl
    · exact hwrote isReply_nil
    · split
      · exact hwrote (.inr (.inr ⟨_, rfl⟩))
      · exact hwrote isReply_nil

/-- NX and XX are looked at before anything is written. -/
theorem executeSetNxXx_effect : SetEffect ra sm (executeSetNxXx ra sm kvp parsedCmd) := by
  have hwrote {r : Bytes} (h : IsReply r) : SetEffect ra sm (some r, (sm.set ra kvp compare).2.1) :=
    .wrote kvp h
  unfold executeSetNxXx
  split
  · exact .refused
  · split
    · exact .refused
    · split
      · -- NX
        split
        · split <;> rename_i hs <;> rw [hs] at hwrote
          · exact hwrote isReply_ok
          · exact hwrote isReply_nil
        · exact .kept isReply_nil
      · split
        · -- XX
          split
          · split <;> rename_i hs <;> rw [hs] at hwrote
            · exact hwrote isReply_ok
            · exact hwrote isReply_nil
          · exact .kept isReply_nil
        · exact .refused

theorem executeSetNxxxGet_effect : SetEffect ra sm (executeSetNxxxGet ra sm kvp parsedCmd) := by
  unfold executeSetNxxxGet
  split
  · exact .refused
  · split
    · exact .refused
    · have heffect : SetEffect ra sm (executeSetNxXx ra sm kvp parsedCmd) := executeSetNxXx_effect
      have hold := isReply_oldValueReply (sm.get kvp.key compare)
      generalize executeSetNxXx ra sm kvp parsedCmd = x at heffect
      cases heffect with
      | refused => exact .refused
      | kept => exact .kept hold
      | wrote kvp' => exact .wrote kvp' hold
      | failed kvp' hfail => exact .failed kvp' hfail

theorem handleSetCmd_effect {c : SetCommand} (hc : c.Runs) (hp : ¬ c.Plain) (now : Timespec)
    (ra : Realloc) (sm : Store) : SetEffect ra sm (handleSetCmd now ra c.args sm) := by
  obtain ⟨-, hk, hv⟩ := hc
  rw [handleSetCmd_args, executeSetCmd_eq now ra hk hv]
  split
  · rename_i hn hg ht
    exact absurd ⟨hn, hg⟩ hp
  · exact executeSetGet_effect
  · exact executeSetNxXx_effect
  · exact executeSetNxxxGet_effect
  · rename_i hn hg ht
    exact absurd ⟨hn, hg⟩ hp
  · exact .refused

/-- What SET leaves in the store, whatever its arguments. -/
theorem handleSetCmd_wrote (now : Timespec) (ra : Realloc) (node : List Node) (sm : Store) :
    Wrote ra sm (handleSetCmd now ra node sm).2 := by
  rcases handleSetCmd_cases node with ⟨c, rfl, hc⟩ | hnull
  · by_cases hp : c.Plain
    · rw [handleSetCmd_plain hp hc.2.1 hc.2.2, executeSetBasic_eq]
      split
      · exact .inr ⟨_, rfl⟩
      · exact .inl rfl
    · exact (handleSetCmd_effect hc hp now ra sm).wrote_snd
  · rw [hnull]
    exact .inl rfl

/-- A `set` that fails although the allocations succeed leaves the map alone. -/
theorem set_failed_ok {es : List (KeyNode × ValueNode)} (h : Stores KeyNode.id sm es)
    (hc : sm.capacity < 2 ^ 31) (hs : (sm.set .ok kvp compare).1 = .errorSetSmRtn) :
    (sm.set .ok kvp compare).2.1 = sm := by
  rw [compare_eq_cmpBy] at hs ⊢
  rcases h.set_cases hc kvp with ⟨sm', -, -, hset⟩ | ⟨-, -, hset⟩
  · rw [hset] at hs
    split at hs <;> cases hs
  · rw [hset]

theorem handleSetCmd_null {sm' : Store} {es : List (KeyNode × ValueNode)}
    (h : Stores KeyNode.id sm es) (hc : sm.capacity < 2 ^ 31) {now : Timespec} {node : List Node}
    (hr : handleSetCmd now .ok node sm = (none, sm')) : sm' = sm := by
  rcases handleSetCmd_cases node with ⟨c, rfl, hruns⟩ | hnull
  · by_cases hp : c.Plain
    · rw [handleSetCmd_plain hp hruns.2.1 hruns.2.2, executeSetBasic_eq] at hr
      split at hr
      · cases hr
      · exact (congrArg Prod.snd hr).symm
    · have heffect := handleSetCmd_effect hruns hp now .ok sm
      rw [hr] at heffect
      cases heffect with
      | refused => rfl
      | failed kvp hs => exact set_failed_ok h hc hs
  · rw [hnull] at hr
    exact (congrArg Prod.snd hr).symm

end Effect

/-! ## The value that a SET with GET quotes -/

section Old

variable {ra : Realloc} {sm : Store} {kvp : KeyValuePair KeyNode ValueNode} {parsedCmd : ParsedCmd}
  {es : List (KeyNode × ValueNode)} {c : SetCommand}

/-- NX and XX alone quote no value. -/
theorem executeSetNxXx_reply {r : Bytes} (hr : (executeSetNxXx ra sm kvp parsedCmd).1 = some r) :
    r = ok ∨ r = nil := by
  unfold executeSetNxXx at hr
  split at hr
  · cases hr
  · split at hr
    · cases hr
    · split at hr
      · -- NX
        split at hr
        · split at hr
          · exact .inl (Option.some.inj hr).symm
          · exact .inr (Option.some.inj hr).symm
        · exact .inr (Option.some.inj hr).symm
      · split at hr
        · -- XX
          split at hr
          · split at hr
            · exact .inl (Option.some.inj hr).symm
            · exact .inr (Option.some.inj hr).symm
          · exact .inr (Option.some.inj hr).symm
        · cases hr

/-- With NX or XX they reply. -/
theorem executeSetNxXx_isSome (ra : Realloc) (kvp : KeyValuePair KeyNode ValueNode)
    (hcheck : executeSetCheck sm = true) {w : CondWord} (hw : parsedCmd.content 3 = some w.1) :
    (executeSetNxXx ra sm kvp parsedCmd).1.isSome = true := by
  unfold executeSetNxXx
  simp only [hcheck, hw, Bool.not_true, Bool.false_eq_true, if_false]
  rcases w.2 with hnx | hxx
  · rw [if_pos (getOptionType_nx.mp hnx)]
    split
    · split <;> rfl
    · rfl
  · have hword := getOptionType_xx.mp hxx
    rw [if_neg (by rw [hword]; decide), if_pos hword]
    split
    · split <;> rfl
    · rfl

theorem executeSetNxxxGet_fst : (executeSetNxxxGet ra sm kvp parsedCmd).1 =
    (executeSetNxXx ra sm kvp parsedCmd).1.map fun _ => oldValueReply (sm.get kvp.key compare) := by
  have hnone : (parsedCmd 3).isNone = true → (executeSetNxXx ra sm kvp parsedCmd).1 = none := by
    intro h
    unfold executeSetNxXx
    split
    · rfl
    · rw [ParsedCmd.content, Option.isNone_iff_eq_none.mp h]
      rfl
  unfold executeSetNxxxGet
  split
  · rename_i hcheck
    rw [executeSetNxXx, if_pos hcheck]
    rfl
  · split
    · rename_i h3
      rw [hnone h3]
      rfl
    · rcases executeSetNxXx ra sm kvp parsedCmd with ⟨_ | r, sm'⟩
      · rfl
      · rfl

/-- GET alone quotes the value that `set` replaces. -/
theorem executeSetGet_fst (h : Stores KeyNode.id sm es) (hc : sm.capacity < 2 ^ 31) :
    (executeSetGet ra sm kvp).1 = if (sm.set ra kvp compare).1 = .errorSetSmRtn then none else
      some (oldValueReply (sm.get kvp.key compare)) := by
  have hcheck : executeSetCheck sm = true := executeSetCheck_stores h
  unfold executeSetGet
  rw [compare_eq_cmpBy, h.get_eq]
  simp only [hcheck, Bool.not_true, Bool.false_eq_true, if_false]
  cases hl : Keyed.lookup (ident KeyNode.id) es (KeyNode.id kvp.key) with
  | some e =>
    obtain ⟨sm', hset, -⟩ := h.set_upgrade ra kvp hl
    rw [hset]
    cases hd : e.2.dtype <;> simp [oldValueReply, hd]
  | none =>
    cases hs : sm.set ra kvp (cmpBy KeyNode.id) with
    | mk rtn rest =>
      obtain ⟨sm', old⟩ := rest
      cases rtn with
      | errorSetSmRtn => rfl
      | sucessSet => rfl
      | sucessUpgrade =>
        -- the key is not there
        have hok := set_ok (show (sm.set ra kvp (cmpBy KeyNode.id)).1 ≠ .errorSetSmRtn by
          rw [hs]
          intro he
          cases he)
        rcases h.set_cases hc kvp with ⟨sm₁, -, -, hset⟩ | ⟨-, -, hset⟩
        · rw [hs, hset, hl] at hok
          cases hok
        · rw [hs, hset] at hok
          cases hok

/-- Without GET nothing is quoted. -/
theorem handleSetCmd_noGet (hc : c.Runs) (hget : c.get = none) {now : Timespec} {r : Bytes}
    (hr : (handleSetCmd now ra c.args sm).1 = some r) : r = ok ∨ r = nil ∨ r = zeros := by
  by_cases hp : c.Plain
  · rw [handleSetCmd_plain hp hc.2.1 hc.2.2, executeSetBasic_eq] at hr
    split at hr
    · rw [← Option.some.inj hr]
      split
      · exact .inr (.inr rfl)
      · exact .inl rfl
    · cases hr
  · rw [handleSetCmd_args, executeSetCmd_eq now ra hc.2.1 hc.2.2, hget] at hr
    split at hr
    · rename_i hn _ _
      exact absurd ⟨hn, hget⟩ hp
    · rename_i hg _
      cases hg
    · exact (executeSetNxXx_reply hr).imp_right .inl
    · rename_i hg _
      cases hg
    · rename_i hn _ _
      exact absurd ⟨hn, hget⟩ hp
    · cases hr

/-- The map has lost an array. -/
theorem handleSetCmd_unchecked (hcheck : executeSetCheck sm = false) (now : Timespec) (ra : Realloc)
    (node : List Node) : (handleSetCmd now ra node sm).1 = none := by
  rcases handleSetCmd_cases node with ⟨c, rfl, hc⟩ | hnull
  · rw [handleSetCmd_args, executeSetCmd_eq now ra hc.2.1 hc.2.2]
    split <;>
      simp [executeSetBasic, executeSetGet, executeSetNxXx, executeSetNxxxGet,
        executeSetExPxExatPxat, hcheck]
  · rw [hnull]

/-- SET with GET replies with the value that was there, if it replies. -/
theorem handleSetCmd_old (h : Stores KeyNode.id sm es) (hcap : sm.capacity < 2 ^ 31) (hc : c.Runs)
    (hget : c.get.isSome = true) (now : Timespec) (ra : Realloc) :
    (∀ r, (handleSetCmd now ra c.args sm).1 = some r → r = oldValueReply (entryAt sm c.key)) ∧
      ((entryAt sm c.key).isSome = true →
        (handleSetCmd now ra c.args sm).1 = some (oldValueReply (entryAt sm c.key))) := by
  obtain ⟨hsup, hk, hv⟩ := hc
  obtain ⟨g, hg⟩ := Option.isSome_iff_exists.mp hget
  -- no executor has both GET and an expiry
  have ht : c.time = none := by
    by_contra hne
    rw [(hsup (Option.isSome_iff_ne_none.mpr hne)).2] at hg
    cases hg
  have hentry : sm.get (newPair c now).key compare = entryAt sm c.key := get_eq_entryAt sm _
  rw [handleSetCmd_args, executeSetCmd_eq now ra hk hv, hg, ht]
  cases hn : c.nxxx with
  | none =>
    simp only [executeSetGet_fst h hcap, hentry]
    constructor
    · intro r hr
      split at hr
      · cases hr
      · exact (Option.some.inj hr).symm
    · intro hfound
      -- `set` fails for new keys only
      rw [if_neg]
      rw [compare_eq_cmpBy, h.set_fails_iff, ← compare_eq_cmpBy, hentry]
      exact fun hfail => absurd hfail.1 (Option.isSome_iff_ne_none.mp hfound)
  | some w =>
    have hw : c.parsedCmd.content 3 = some w.1 := by
      rw [ParsedCmd.content, SetCommand.parsedCmd_nxxx, hn]
      rfl
    obtain ⟨x, hx⟩ := Option.isSome_iff_exists.mp
      (executeSetNxXx_isSome ra (newPair c now) (executeSetCheck_stores h) hw)
    simp only [executeSetNxxxGet_fst, hentry, hx]
    exact ⟨fun r hr => (Option.some.inj hr).symm, fun _ => rfl⟩


end Old

/-! ## GET -/

/-- What GET answers from the store `sm`, and the store that it leaves. -/
inductive GetEffect (sm : Store) : Option Bytes × Store → Prop
  | refused : GetEffect sm (none, sm)
  | kept {r : Bytes} : IsReply r → GetEffect sm (some r, sm)
  | removed (key : KeyNode) : GetEffect sm (some nil, (sm.removeKey key compare).2.1)
  | failed (key : KeyNode) : (sm.removeKey key compare).1 = .removeError →
      GetEffect sm (none, (sm.removeKey key compare).2.1)

theorem GetEffect.isReply {sm : Store} {x : Option Bytes × Store} (h : GetEffect sm x) {r : Bytes}
    (hr : x.1 = some r) : IsReply r := by
  cases h with
  | refused => cases hr
  | kept hreply => exact Option.some.inj hr ▸ hreply
  | removed key => exact Option.some.inj hr ▸ isReply_nil
  | failed key => cases hr

/-- GET writes to the store only when a key has expired. -/
theorem handleGetCmd_effect (lc : Libc) (now : Timespec) (node : List Node) (sm : Store) :
    GetEffect sm (handleGetCmd lc now node sm) := by
  unfold handleGetCmd
  split
  · exact .refused
  · split
    · exact .refused
    · rename_i key hkey
      split
      · exact .kept isReply_nil
      · split
        · have hremoved : GetEffect sm (some nil, (sm.removeKey key compare).2.1) := .removed key
          have hfailed : (sm.removeKey key compare).1 = .removeError →
              GetEffect sm (none, (sm.removeKey key compare).2.1) := .failed key
          split <;> rename_i hs <;> rw [hs] at hremoved hfailed
          · exact hfailed rfl
          · exact hremoved
          · exact hremoved
        · split
          · exact .kept (.inr (.inr ⟨_, rfl⟩))
          · exact .refused

theorem handleGetCmd_null {sm sm' : Store} {es : List (KeyNode × ValueNode)}
    (h : Stores KeyNode.id sm es) {lc : Libc} {now : Timespec} {node : List Node}
    (hr : handleGetCmd lc now node sm = (none, sm')) : sm' = sm := by
  have heffect := handleGetCmd_effect lc now node sm
  rw [hr] at heffect
  cases heffect with
  | refused => rfl
  | failed key hs =>
    obtain ⟨sm₁, -, -, hrm⟩ := h.removeKey_eq key
    rw [compare_eq_cmpBy, hrm] at hs
    split at hs <;> cases hs

/-- A reply to GET is nil, or it quotes a value that has not expired. -/
theorem handleGetCmd_reply {lc : Libc} {now : Timespec} {node : List Node} {sm : Store} {r : Bytes}
    (hr : (handleGetCmd lc now node sm).1 = some r) :
    r = nil ∨ ∃ k kvp, node = [.bulk k] ∧ k ≠ [] ∧ entryAt sm k = some kvp ∧
      hasKeyExpired lc ⟨k, now, 0, 0⟩ kvp.key = false ∧ kvp.value.dtype = .bulkStr ∧
        r = bulkString kvp.value.content := by
  unfold handleGetCmd at hr
  cases hv : isCmdValid node with
  | none =>
    rw [hv] at hr
    cases hr
  | some k =>
    have hnode : node = [.bulk k] := by
      unfold isCmdValid at hv
      split at hv
      · cases hv
        rfl
      · cases hv
    by_cases hk : k = []
    · subst hk
      rw [hv] at hr
      cases hr
    · simp only [hv, createKeyNode_of_ne hk, get_eq_entryAt] at hr
      cases he : entryAt sm k with
      | none =>
        rw [he] at hr
        exact .inl (Option.some.inj hr).symm
      | some kvp =>
        simp only [he] at hr
        split at hr
        · -- expired: nil, unless `remove_key` fails
          left
          split at hr
          · cases hr
          · exact (Option.some.inj hr).symm
          · exact (Option.some.inj hr).symm
        · rename_i hexp
          split at hr
          · rename_i hd
            rw [Bool.not_eq_true] at hexp
            exact .inr ⟨k, kvp, hnode, hk, he, hexp, hd, (Option.some.inj hr).symm⟩
          · cases hr

theorem handleGetCmd_quote {lc : Libc} {now : Timespec} {k : Bytes} (hk : k ≠ []) {sm : Store}
    {kvp : KeyValuePair KeyNode ValueNode} (he : entryAt sm k = some kvp)
    (hexp : hasKeyExpired lc ⟨k, now, 0, 0⟩ kvp.key = false) (hd : kvp.value.dtype = .bulkStr) :
    handleGetCmd lc now [.bulk k] sm = (some (bulkString kvp.value.content), sm) := by
  simp only [handleGetCmd, isCmdValid, createKeyNode_of_ne hk, get_eq_entryAt, he, hexp,
    Bool.false_eq_true, if_false, hd, keyOrValueNodeToString]

end RedisImpl
