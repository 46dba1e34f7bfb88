import Cop.Strdict.Refinement

/-!
# Null-terminated keys

`cop_strdict.h` offers every call in two forms: with a `cop_strh`, and with a
null-terminated string, "which will be converted to a cop_strh structure using the
cop_strh_init_shallow() function". The `cop_strh` that `cop_strtypes.h` documents for
a string (`documentedStrh`) does not count the terminator; the one that
`cop_strh_init_shallow` makes does. The two never have the same 64-bit key, so a node
that was inserted in one form cannot be seen in the other.

## What is proved

* `getikey_documented_ne` — for every string, the two keys differ.
* `copStrdictDelete_hit` — a node that is deleted has the key that was given.
* `forms_never_agree` — there is no string, no dictionary and no node for which the two
  forms agree.
* `documented_hidden` — in a dictionary that holds neither key, the lookups through the
  string report that there is no such key, and change nothing (`hidden_of_ne`, for any two
  keys).
-/

namespace Cop.Strdict

open Theory DigitTree

variable {δ : Type}

/-! ### The two keys of a string -/

/-- The upper half of a packed key is the length, modulo `2^32`. -/
theorem getikey_div {s : Strh} (h : s.hash < 2 ^ 32) : getikey s / 2 ^ 32 = s.len % 2 ^ 32 := by
  have hor : getikey s = s.len % 2 ^ 32 * 2 ^ 32 + s.hash := by
    rw [getikey, Nat.shiftLeft_eq, show (2 : ℕ) ^ 64 = 2 ^ 32 * 2 ^ 32 by decide, Nat.mul_mod_mul_right,
      ← Nat.shiftLeft_eq, ← Nat.shiftLeft_add_eq_or_of_lt h, Nat.shiftLeft_eq]
  omega

/-- The packed key that the headers document for a string is never the one that
`cop_strh_init_shallow` leads to. -/
theorem getikey_documented_ne (T : Target) (m : Bytes) (p n : ℕ) :
    getikey (documentedStrh m p n) ≠ getikey (initShallow T m p n) := by
  intro heq
  have hd := getikey_div (s := documentedStrh m p n) (fnv1a_lt _)
  have hi := getikey_div (s := initShallow T m p n) (foldHash_lt T _)
  have hdvd : (2 : ℕ) ^ 32 ∣ 2 ^ T.fast32 := Nat.pow_dvd_pow 2 T.fast32_ge
  have hlen : (initShallow T m p n).len % 2 ^ 32 = (n + 1) % 2 ^ 32 := Nat.mod_mod_of_dvd _ hdvd
  have hlen' : (documentedStrh m p n).len = n := rfl
  rw [heq, hi, hlen, hlen'] at hd
  omega

/-! ### Calls touch only nodes of the key they are given -/

theorem search_hit {st : Store δ} {hit : Ptr → Bool} {fuel : ℕ} {x y : Loc × Option Ptr × ℕ} {p : Ptr}
    (h : loop (searchTurn st hit) fuel x = .ok y) (hp : y.2.1 = some p) : hit p = true := by
  refine loop_partial (I := fun _ => True) (Q := fun r => ∀ q, r.2.1 = some q → hit q = true)
    (fun _ _ _ _ => trivial) ?_ trivial h p hp
  rintro ⟨ℓ, _ | q, ukey⟩ r - hdone q' hq'
  · cases hdone
    cases hq'
  · rw [searchTurn] at hdone
    split at hdone
    · rename_i hq
      cases hdone
      cases hq'
      exact hq
    · cases hdone

theorem keyMatches_key {m : Bytes} {st : Store δ} {ikey ptr len : ℕ} {p : Ptr}
    (h : keyMatches m st ikey ptr len p = true) : (st.nodes p).key = ikey := by
  rw [keyMatches, Bool.and_eq_true, beq_iff_eq] at h
  exact h.1

/-- A node that is deleted had the key. -/
theorem copStrdictDelete_hit {fuel : ℕ} {m : Bytes} {st st' : Store δ} {ℓ : Loc} {s : Strh} {p : Ptr}
    (h : copStrdictDelete fuel m st ℓ s = .ok (some p, st')) : (st.nodes p).key = getikey s := by
  obtain ⟨⟨ℓ', q, ukey⟩, hl, h⟩ := bind_ok h
  cases q with
  | none => cases h
  | some q =>
    obtain ⟨r, -, h⟩ := bind_ok h
    cases h
    exact keyMatches_key (search_hit hl rfl)

/-- Inserting changes no key. -/
theorem copStrdictInsert_item {fuel : ℕ} {m : Bytes} {st st' : Store δ} {ℓ : Loc} {p : Ptr} {r : ℤ}
    (h : copStrdictInsert fuel m st ℓ p = .ok (r, st')) (q : Ptr) : (st'.nodes q).item = (st.nodes q).item := by
  obtain ⟨⟨ℓ', y, ukey⟩, -, h⟩ := bind_ok h
  cases y with
  | some y => cases h; rfl
  | none =>
    cases h
    exact Store.item_set st ℓ' _ q

/-! ### The two forms -/

/-- The calls that look a key up in the dictionary at `*pp_root`. -/
structure Lookups (δ : Type) where
  /-- `cop_strdict_get`, in one of the forms. -/
  get : Store δ → Exec Fault (ℤ × Option δ)
  /-- `cop_strdict_update`. -/
  update : Store δ → δ → Exec Fault (ℤ × Store δ)
  /-- `cop_strdict_delete`. -/
  delete : Store δ → Exec Fault (Option Ptr × Store δ)

/-- The calls with a `cop_strh`. -/
def byStrh (fuel : ℕ) (m : Bytes) (ppRoot : Loc) (s : Strh) : Lookups δ where
  get st := copStrdictGet fuel m st (st.get ppRoot) s true
  update st v := copStrdictUpdate fuel m st (st.get ppRoot) s v
  delete st := copStrdictDelete fuel m st ppRoot s

/-- The calls with the null-terminated string at `p`. -/
def byCstr (T : Target) (fuel : ℕ) (m : Bytes) (ppRoot : Loc) (p : ℕ) : Lookups δ where
  get st := copStrdictGetByCstr T fuel m st (st.get ppRoot) p true
  update st v := copStrdictUpdateByCstr T fuel m st (st.get ppRoot) p v
  delete st := copStrdictDeleteByCstr T fuel m st ppRoot p

/-- The calls `L` see the node `q`: its data is found, it is changed, it is removed. -/
structure Lookups.Sees (L : Lookups δ) (st : Store δ) (q : Ptr) : Prop where
  /-- `cop_strdict_get` returns its data. -/
  found : L.get st = .ok (0, some (st.nodes q).data)
  /-- `cop_strdict_update` changes its data. -/
  changed : ∀ v, ∃ st', L.update st v = .ok (0, st') ∧ (st'.nodes q).data = v
  /-- `cop_strdict_delete` returns it. -/
  removed : ∃ st', L.delete st = .ok (some q, st')

/-- A node set up with the documented `cop_strh` of the string at `p` and inserted is seen
through the string. -/
def StrhSeenByCstr (T : Target) (m : Bytes) (p n : ℕ) (st : Store δ) (ppRoot : Loc) (q : Ptr) (d : δ) : Prop :=
  ∃ fuel st', copStrdictInsert fuel m (copStrdictNodeInit st q (documentedStrh m p n) d) ppRoot q = .ok (0, st') ∧
    (byCstr T fuel m ppRoot p).Sees st' q

/-- A node set up with the string at `p` and inserted is seen through the documented
`cop_strh`. -/
def CstrSeenByStrh (T : Target) (m : Bytes) (p n : ℕ) (st : Store δ) (ppRoot : Loc) (q : Ptr) (d : δ) : Prop :=
  ∃ fuel st₁ st', copStrdictNodeInitByCstr T fuel m st q p d = .ok st₁ ∧
    copStrdictInsert fuel m st₁ ppRoot q = .ok (0, st') ∧
    (byStrh fuel m ppRoot (documentedStrh m p n)).Sees st' q

theorem copStrdictNodeInit_key (st : Store δ) (q : Ptr) (s : Strh) (d : δ) :
    ((copStrdictNodeInit st q s d).nodes q).key = getikey s := by
  simp [copStrdictNodeInit, Store.setNode]

/-- A node is not seen through a key that is not its own. -/
theorem not_sees_byStrh {fuel : ℕ} {m : Bytes} {ℓ : Loc} {s : Strh} {st : Store δ} {q : Ptr}
    (hne : (st.nodes q).key ≠ getikey s) : ¬ (byStrh fuel m ℓ s).Sees st q := by
  intro h
  obtain ⟨st', hdel⟩ := h.removed
  exact hne (copStrdictDelete_hit hdel)

theorem not_sees_byCstr {T : Target} {fuel : ℕ} {m : Bytes} {ℓ : Loc} {p n : ℕ} (hs : IsCstr m p n) {st : Store δ}
    {q : Ptr} (hne : (st.nodes q).key ≠ getikey (initShallow T m p n)) :
    ¬ (byCstr T fuel m ℓ p).Sees st q := by
  intro h
  obtain ⟨st', hdel⟩ := h.removed
  obtain ⟨s, hinit, hdel⟩ := bind_ok hdel
  obtain ⟨-, rfl⟩ := copStrhInitShallow_eq hs hinit
  exact hne (copStrdictDelete_hit hdel)

/-- **The two forms never agree.** Whatever the string, the dictionary, the node and its
data, a node inserted in one form is not seen in the other. -/
theorem forms_never_agree (T : Target) {m : Bytes} {p n : ℕ} (hs : IsCstr m p n) (st : Store δ) (ppRoot : Loc)
    (q : Ptr) (d : δ) :
    ¬ StrhSeenByCstr T m p n st ppRoot q d ∧ ¬ CstrSeenByStrh T m p n st ppRoot q d := by
  constructor
  · rintro ⟨fuel, st', hins, hsees⟩
    refine not_sees_byCstr hs ?_ hsees
    have hkey : (st'.nodes q).key = getikey (documentedStrh m p n) :=
      (congrArg Prod.fst (copStrdictInsert_item hins q)).trans (copStrdictNodeInit_key ..)
    rw [hkey]
    exact getikey_documented_ne T m p n
  · rintro ⟨fuel, st₁, st', hinit, hins, hsees⟩
    obtain ⟨s, hshallow, hinit⟩ := bind_ok hinit
    obtain ⟨-, rfl⟩ := copStrhInitShallow_eq hs hshallow
    cases hinit
    refine not_sees_byStrh ?_ hsees
    have hkey : (st'.nodes q).key = getikey (initShallow T m p n) :=
      (congrArg Prod.fst (copStrdictInsert_item hins q)).trans (copStrdictNodeInit_key ..)
    rw [hkey]
    exact (getikey_documented_ne T m p n).symm

/-- Memory with the string `a` at address 16. -/
def letterA : Bytes := fun i => if i = 16 then 97 else 0

/-- A node that is set up with the documented `cop_strh` of `a` and inserted into an empty
dictionary, or set up with the string and inserted, is not found, not changed and not deleted
in the other form. -/
theorem letterA_hidden :
    (∃ st, copStrdictInsert 3 letterA (copStrdictNodeInit emptyWorld.store 1 (documentedStrh letterA 16 1) 7)
        World.root 1 = .ok (0, st) ∧
      (byCstr lp64 3 letterA World.root 16).get st = .ok (-1, none) ∧
      (byCstr lp64 3 letterA World.root 16).update st 8 = .ok (-1, st) ∧
      (byCstr lp64 3 letterA World.root 16).delete st = .ok (none, st)) ∧
    ∃ st₁ st, copStrdictNodeInitByCstr lp64 3 letterA emptyWorld.store 1 16 7 = .ok st₁ ∧
      copStrdictInsert 3 letterA st₁ World.root 1 = .ok (0, st) ∧
      (byStrh 3 letterA World.root (documentedStrh letterA 16 1)).get st = .ok (-1, none) ∧
      (byStrh 3 letterA World.root (documentedStrh letterA 16 1)).update st 8 = .ok (-1, st) ∧
      (byStrh 3 letterA World.root (documentedStrh letterA 16 1)).delete st = .ok (none, st) :=
  ⟨⟨_, rfl, rfl, rfl, rfl⟩, _, _, rfl, rfl, rfl, rfl, rfl⟩

theorem forms_never_agree_letterA : ¬ StrhSeenByCstr lp64 letterA 16 1 emptyWorld.store World.root 1 7 ∧
    ¬ CstrSeenByStrh lp64 letterA 16 1 emptyWorld.store World.root 1 7 :=
  forms_never_agree lp64 ⟨by decide, by decide⟩ emptyWorld.store World.root 1 7

/-! ### What the other form sees instead -/

/-- In a dictionary that binds neither the key of `s` nor the key of `s'`, a node that is set
up with `s` is inserted, and every lookup through `s'` then reports that there is no such key
and changes nothing. -/
theorem hidden_of_ne {n fuel : ℕ} {D : Dict δ} {w : World δ} {t : DigitTree chidNb Ptr} (h : Holds n D w t)
    (hf : n + 2 < fuel) {s s' : Strh} (hs : s.Fits) (hs' : s'.Fits) (hne : s.toKey D.mem ≠ s'.toKey D.mem)
    (habs : s.toKey D.mem ∉ D.bound) (habs' : s'.toKey D.mem ∉ D.bound) {q : Ptr}
    (hq : ∀ k, D.bound.lookup k ≠ some q) (d : δ) :
    ∃ st, copStrdictInsert fuel w.mem (copStrdictNodeInit w.store q s d) World.root q = .ok (0, st) ∧
      (byStrh fuel w.mem World.root s').get st = .ok (-1, none) ∧
      (∀ v, (byStrh fuel w.mem World.root s').update st v = .ok (-1, st)) ∧
      (byStrh fuel w.mem World.root s').delete st = .ok (none, st) := by
  have hinit : Answered fuel n D w (.init q s d) := holds_init h ⟨hq, hs⟩
  obtain ⟨r₁, w₁, hstep₁, -, t₁, h₁⟩ := hinit
  cases hstep₁
  have hlegal : (D.next (.init q s d)).Legal (.insert q) := by simp [Dict.Legal]
  obtain ⟨r₂, w₂, hstep₂, hallows, t₂, h₂⟩ := holds_insert h₁ (show n + 1 < fuel by omega) hlegal
  obtain ⟨⟨r, st⟩, hins, hstep₂⟩ := bind_ok hstep₂
  cases hstep₂
  have hkey : (D.next (.init q s d)).keyOf q = some (s.toKey D.mem) := by simp [Dict.keyOf, Dict.next]
  obtain rfl : r = 0 := by
    obtain ⟨k, hk, hr⟩ := hallows
    obtain rfl : k = s.toKey D.mem := Option.some.inj (hk.symm.trans hkey)
    exact hr.2 habs
  -- the other key is as unbound as it was
  have hnone : ((D.next (.init q s d)).next (.insert q)).bound.lookup (s'.toKey w.mem) = none := by
    rw [Dict.next_insert hkey habs, h.mem, Finmap.lookup_insert_of_ne _ hne.symm]
    exact Finmap.lookup_eq_none.2 habs'
  have hmem : ((D.next (.init q s d)).next (.insert q)).mem = w.mem := h₂.mem.symm
  have hwalk := h₂.walk hs' hf
  have hfound := h₂.found_eq hs'
  rw [hmem, hnone] at hwalk hfound
  have hdel := copStrdictDelete_absent h₂.tree hfound (h₂.height.trans_lt hf)
  refine ⟨st, hins, ?_, fun v => ?_, hdel⟩
  · simp only [byStrh, copStrdictGet, hwalk]
    rfl
  · simp only [byStrh, copStrdictUpdate, hwalk]
    rfl

/-- The calls with a string are the calls with what `cop_strh_init_shallow` makes of it. -/
theorem byCstr_eq {T : Target} {fuel : ℕ} {m : Bytes} {p n : ℕ} (h : IsCstr m p n) (hn : n < 2 ^ T.fast32)
    (hf : n < fuel) (ppRoot : Loc) :
    (byCstr T fuel m ppRoot p : Lookups δ) = byStrh fuel m ppRoot (initShallow T m p n) := by
  have hshallow := copStrhInitShallow_ok h hn hf
  simp only [byCstr, byStrh, copStrdictGetByCstr, copStrdictUpdateByCstr, copStrdictDeleteByCstr, hshallow]
  rfl

/-- The documented key of a string and the key that the code makes of it are different keys. -/
theorem toKey_documented_ne (T : Target) {m : Bytes} {p n : ℕ} (hn : n + 1 < 2 ^ 32) :
    (documentedStrh m p n).toKey m ≠ (initShallow T m p n).toKey m := by
  intro heq
  have hlen : n = (n + 1) % 2 ^ T.fast32 := congrArg Key.len heq
  have hle := T.two_pow_le
  rw [Nat.mod_eq_of_lt (by omega)] at hlen
  omega

/-- A node that was set up with the documented `cop_strh` of a string and inserted into a
dictionary that holds neither key of the string is reported missing by every lookup through
the string. -/
theorem documented_hidden {T : Target} {n k fuel : ℕ} {D : Dict δ} {w : World δ} {t : DigitTree chidNb Ptr}
    (h : Holds k D w t) {p : ℕ} (hs : IsCstr w.mem p n) (hn : n + 1 < 2 ^ 32) (hf : n + k + 2 < fuel)
    (habs : (documentedStrh w.mem p n).toKey D.mem ∉ D.bound)
    (habs' : (initShallow T w.mem p n).toKey D.mem ∉ D.bound) {q : Ptr} (hq : ∀ k, D.bound.lookup k ≠ some q) (d : δ) :
    ∃ st, copStrdictInsert fuel w.mem (copStrdictNodeInit w.store q (documentedStrh w.mem p n) d) World.root q =
        .ok (0, st) ∧
      (byCstr T fuel w.mem World.root p).get st = .ok (-1, none) ∧
      (∀ v, (byCstr T fuel w.mem World.root p).update st v = .ok (-1, st)) ∧
      (byCstr T fuel w.mem World.root p).delete st = .ok (none, st) := by
  have hle := T.two_pow_le
  have hfits : (documentedStrh w.mem p n).Fits := ⟨show n < 2 ^ 32 by omega, fnv1a_lt _⟩
  have hfits' : (initShallow T w.mem p n).Fits :=
    ⟨(Nat.mod_eq_of_lt (show n + 1 < 2 ^ T.fast32 by omega)).trans_lt hn, foldHash_lt T _⟩
  rw [byCstr_eq hs (by omega) (by omega)]
  refine hidden_of_ne h (by omega) hfits hfits' ?_ habs habs' hq d
  rw [← h.mem]
  exact toKey_documented_ne T hn

end Cop.Strdict
