import Mathlib.Data.List.Nodup
import Mathlib.Data.List.Basic

/-!
# Lists of entries with a key

A list of entries `es : List ε`, each with a key `id e : ι`, read as a finite map: `lookup id es k`
is the entry with key `k`. `Distinct id es`: no two entries have one key, so an entry's position is
determined by its key (`Distinct.pos_unique`), and a change at one position is a change at one key:

* `put`: an entry replaced by one with the same key, or a new entry at the end (`lookup_put`);
* `remove`: the entry with a key removed (`lookup_remove`).
-/

namespace RedisImpl
namespace Keyed

variable {ε ι : Type} (id : ε → ι)

/-- No two entries have the same key. -/
def Distinct (es : List ε) : Prop := (es.map id).Nodup

section Defs

variable [DecidableEq ι]

/-- The first entry with key `k`. -/
def lookup (es : List ε) (k : ι) : Option ε := es.find? fun e => id e = k

/-- The position of the first entry with key `k`. -/
def pos (es : List ε) (k : ι) : Option Nat := es.findIdx? fun e => id e = k

/-- The entry `e` in the place of the one with its key, or at the end. -/
def put (es : List ε) (e : ε) : List ε :=
  match pos id es (id e) with
  | none => es ++ [e]
  | some i => es.set i e

/-- The entries without the one with key `k`. -/
def remove (es : List ε) (k : ι) : List ε :=
  match pos id es k with
  | none => es
  | some i => es.eraseIdx i

end Defs

variable {id} {es : List ε} {e : ε} {k : ι} {n : Nat}

/-! ## Distinct keys -/

/-- The entries of a distinct list at two positions with one key are at one position. -/
theorem Distinct.pos_unique (hd : Distinct id es) {i j : Nat} {a b : ε} (hi : es[i]? = some a)
    (hj : es[j]? = some b) (hab : id a = id b) : i = j := by
  have hi' : (es.map id)[i]? = some (id a) := by simp [hi]
  have hj' : (es.map id)[j]? = some (id a) := by simp [hj, hab]
  have hlt : i < (es.map id).length := (List.getElem?_eq_some_iff.mp hi').1
  exact (List.getElem?_inj hlt hd).mp (hi'.trans hj'.symm)

theorem map_set_same {a : ε} (hn : es[n]? = some a) (hid : id e = id a) :
    (es.set n e).map id = es.map id := by
  obtain ⟨hlt, rfl⟩ := List.getElem?_eq_some_iff.mp hn
  rw [List.map_set, hid]
  refine List.ext_getElem? fun i => ?_
  by_cases hi : n = i
  · subst hi
    simp [hlt]
  · rw [List.getElem?_set_ne hi]

/-- An entry replaced by one with the same key keeps the keys distinct. -/
theorem Distinct.set {a : ε} (hd : Distinct id es) (hn : es[n]? = some a) (hid : id e = id a) :
    Distinct id (es.set n e) := by
  unfold Distinct
  rw [map_set_same hn hid]
  exact hd

theorem Distinct.eraseIdx (hd : Distinct id es) (n : Nat) : Distinct id (es.eraseIdx n) := by
  unfold Distinct at *
  exact hd.sublist ((List.eraseIdx_sublist es n).map id)

/-! ## Lookups -/

variable [DecidableEq ι]

theorem id_of_lookup (h : lookup id es k = some e) : id e = k := by
  simpa using List.find?_some h

theorem mem_of_lookup (h : lookup id es k = some e) : e ∈ es := List.mem_of_find?_eq_some h

theorem lookup_eq_none : lookup id es k = none ↔ ∀ e ∈ es, id e ≠ k := by
  simp [lookup, List.find?_eq_none]

@[simp] theorem lookup_nil : lookup id [] k = none := rfl

/-- In a distinct list every entry is the one that its key finds. -/
theorem lookup_of_mem (hd : Distinct id es) (he : e ∈ es) : lookup id es (id e) = some e := by
  cases hl : lookup id es (id e) with
  | none => exact absurd rfl (lookup_eq_none.mp hl e he)
  | some a =>
    rw [List.inj_on_of_nodup_map hd (mem_of_lookup hl) he (id_of_lookup hl)]

theorem lookup_of_getElem? (hd : Distinct id es) (hn : es[n]? = some e) :
    lookup id es (id e) = some e :=
  lookup_of_mem hd (List.mem_of_getElem? hn)

theorem pos_eq_none : pos id es k = none ↔ lookup id es k = none := by
  rw [lookup_eq_none, pos, List.findIdx?_eq_none_iff]
  simp

/-- A key that is present has the position of its entry. -/
theorem pos_of_lookup (hd : Distinct id es) (h : lookup id es k = some e) :
    ∃ i, pos id es k = some i ∧ es[i]? = some e := by
  cases hp : pos id es k with
  | none =>
    rw [pos_eq_none, h] at hp
    cases hp
  | some i =>
    obtain ⟨hlt, hi, -⟩ := List.findIdx?_eq_some_iff_getElem.mp hp
    have hi' : lookup id es k = some es[i] := by
      rw [← lookup_of_getElem? hd (List.getElem?_eq_getElem hlt)]
      simpa using congrArg (lookup id es) (by simpa using hi : id es[i] = k).symm
    rw [h] at hi'
    exact ⟨i, rfl, by rw [List.getElem?_eq_getElem hlt, hi']⟩

/-- `lookup` in a distinct list is membership. -/
theorem lookup_eq_some (hd : Distinct id es) : lookup id es k = some e ↔ e ∈ es ∧ id e = k := by
  constructor
  · intro h
    exact ⟨mem_of_lookup h, id_of_lookup h⟩
  · rintro ⟨he, rfl⟩
    exact lookup_of_mem hd he

/-- A new entry at the end: its key finds it, every other key finds what it found before. -/
theorem lookup_append (hnew : lookup id es (id e) = none) :
    lookup id (es ++ [e]) k = if k = id e then some e else lookup id es k := by
  unfold lookup at *
  rw [List.find?_append]
  by_cases hk : k = id e
  · subst hk
    simp [hnew]
  · simp [hk, Ne.symm hk]

theorem Distinct.append (hd : Distinct id es) (hnew : lookup id es (id e) = none) :
    Distinct id (es ++ [e]) := by
  unfold Distinct at *
  rw [List.map_append, List.nodup_append]
  refine ⟨hd, by simp, fun a ha b hb => ?_⟩
  obtain ⟨x, hx, rfl⟩ := List.mem_map.mp ha
  obtain rfl : b = id e := by simpa using hb
  exact lookup_eq_none.mp hnew x hx

/-- An entry replaced by one with the same key: that key finds the new entry. -/
theorem lookup_set {a : ε} (hd : Distinct id es) (hn : es[n]? = some a) (hid : id e = id a) :
    lookup id (es.set n e) k = if k = id e then some e else lookup id es k := by
  have hlt : n < es.length := (List.getElem?_eq_some_iff.mp hn).1
  have hd' := hd.set hn hid
  by_cases hk : k = id e
  · rw [if_pos hk, hk]
    exact lookup_of_getElem? (n := n) hd' (by simp [hlt])
  · rw [if_neg hk]
    refine Option.ext fun b => ?_
    rw [lookup_eq_some hd', lookup_eq_some hd]
    constructor
    · rintro ⟨hb, rfl⟩
      rcases List.mem_or_eq_of_mem_set hb with h | rfl
      · exact ⟨h, rfl⟩
      · exact absurd rfl hk
    · rintro ⟨hb, rfl⟩
      obtain ⟨i, hi⟩ := List.mem_iff_getElem?.mp hb
      have hin : n ≠ i := by
        rintro rfl
        rw [hn] at hi
        cases hi
        exact hk hid.symm
      exact ⟨List.mem_of_getElem? (i := i) (by rwa [List.getElem?_set_ne hin]), rfl⟩

/-- An entry removed: its key finds nothing, every other key finds what it found before. -/
theorem lookup_eraseIdx (hd : Distinct id es) (hn : es[n]? = some e) :
    lookup id (es.eraseIdx n) k = if k = id e then none else lookup id es k := by
  refine Option.ext fun b => ?_
  by_cases hk : k = id e
  · subst hk
    rw [if_pos rfl, lookup_eq_some (hd.eraseIdx n)]
    constructor
    · rintro ⟨hb, hid⟩
      obtain ⟨i, hne, hi⟩ := List.mem_eraseIdx_iff_getElem?.mp hb
      exact absurd (hd.pos_unique hi hn hid) hne
    · intro h
      cases h
  · rw [if_neg hk, lookup_eq_some (hd.eraseIdx n), lookup_eq_some hd]
    constructor
    · rintro ⟨hb, hid⟩
      exact ⟨List.mem_of_mem_eraseIdx hb, hid⟩
    · rintro ⟨hb, rfl⟩
      obtain ⟨i, hi⟩ := List.mem_iff_getElem?.mp hb
      refine ⟨List.mem_eraseIdx_iff_getElem?.mpr ⟨i, ?_, hi⟩, rfl⟩
      rintro rfl
      rw [hn] at hi
      cases hi
      exact hk rfl

/-! ## `put` and `remove` -/

theorem put_absent (h : lookup id es (id e) = none) : put id es e = es ++ [e] := by
  rw [put, pos_eq_none.mpr h]

theorem remove_absent (h : lookup id es k = none) : remove id es k = es := by
  rw [remove, pos_eq_none.mpr h]

theorem Distinct.put (hd : Distinct id es) (e : ε) : Distinct id (put id es e) := by
  cases hl : lookup id es (id e) with
  | none =>
    rw [put_absent hl]
    exact hd.append hl
  | some a =>
    obtain ⟨i, hi, ha⟩ := pos_of_lookup hd hl
    rw [Keyed.put, hi]
    exact hd.set ha (id_of_lookup hl).symm

/-- After `put id es e` the key of `e` finds `e`, every other key finds what it found before. -/
theorem lookup_put (hd : Distinct id es) (e : ε) (k : ι) :
    lookup id (put id es e) k = if k = id e then some e else lookup id es k := by
  cases hl : lookup id es (id e) with
  | none => rw [put_absent hl, lookup_append hl]
  | some a =>
    obtain ⟨i, hi, ha⟩ := pos_of_lookup hd hl
    rw [put, hi]
    exact lookup_set hd ha (id_of_lookup hl).symm

variable (id) in
theorem length_remove_le (es : List ε) (k : ι) : (remove id es k).length ≤ es.length := by
  unfold remove
  split
  · exact Nat.le_refl _
  · exact List.length_eraseIdx_le ..

theorem Distinct.remove (hd : Distinct id es) (k : ι) : Distinct id (remove id es k) := by
  unfold Keyed.remove
  split
  · exact hd
  · exact hd.eraseIdx _

/-- After `remove id es k'` the key `k'` finds nothing, every other key what it found before. -/
theorem lookup_remove (hd : Distinct id es) (k' k : ι) :
    lookup id (remove id es k') k = if k = k' then none else lookup id es k := by
  cases hl : lookup id es k' with
  | none =>
    rw [remove_absent hl]
    split
    · rename_i h
      rw [h, hl]
    · rfl
  | some a =>
    obtain ⟨i, hi, ha⟩ := pos_of_lookup hd hl
    rw [remove, hi, lookup_eraseIdx hd ha, id_of_lookup hl]

/-! ## Entries that are read through a function -/

section Map

variable {ε' : Type} {f : ε' → ε} {fs : List ε'} {a : ε'}

theorem lookup_map : lookup id (fs.map f) k = (lookup (fun a => id (f a)) fs k).map f :=
  List.find?_map

theorem pos_map : pos id (fs.map f) k = pos (fun a => id (f a)) fs k := List.findIdx?_map

theorem put_map : put id (fs.map f) (f a) = (put (fun a => id (f a)) fs a).map f := by
  rw [put, put, pos_map]
  cases pos (fun a => id (f a)) fs (id (f a)) with
  | none => simp
  | some i => simp [List.map_set]

theorem remove_map : remove id (fs.map f) k = (remove (fun a => id (f a)) fs k).map f := by
  rw [remove, remove, pos_map]
  cases pos (fun a => id (f a)) fs k with
  | none => rfl
  | some i =>
    simp only [List.eraseIdx_eq_take_drop_succ, List.map_append, List.map_take, List.map_drop]

end Map
end Keyed
end RedisImpl
