import Cop.Strdict.Cstr
import Cop.Theory.Extents

/-!
# Null-terminated strings and the dictionary

What `cop_strdict_tests.c` uses of `string.h`, and what the calls of the dictionary with a
null-terminated string answer. A string `bs` is bytes that are not null; `CstrAt m p bs`
says that it is at `p` in memory, with its terminator.

## What is proved

* `strlen_ok`, `strcmpEq_ok`, `memcpy_ok` — the functions of `string.h`, on strings.
* `toKey_initShallow` — the key that the dictionary makes of a string: `cstrKey`, which
  depends on its bytes only and is not the key of another string (`cstrKey_inj`).
* `getByCstr_ok`, `updateByCstr_ok`, `deleteByCstr_ok` — what a call with a string at any address
  answers is what the map says of that key.
-/

namespace Cop.Tests

open Theory Strdict

/-! ### `string.h` -/

/-- One turn of `strlen`, which has seen `n` bytes. -/
def strlenTurn (m : Bytes) (p n : ℕ) : Exec Fault (Turn ℕ ℕ) :=
  if m (p + n) = 0 then .ok (.done n) else .ok (.more (n + 1))

/-- `strlen`. -/
def strlen (fuel : ℕ) (m : Bytes) (p : ℕ) : Exec Fault ℕ := loop (strlenTurn m p) fuel 0

/-- One turn of `strcmp`, as a test for equality, after `i` bytes that are equal. -/
def strcmpTurn (m : Bytes) (p q i : ℕ) : Exec Fault (Turn ℕ Bool) :=
  if m (p + i) ≠ m (q + i) then .ok (.done false)
  else if m (p + i) = 0 then .ok (.done true)
  else .ok (.more (i + 1))

/-- `!strcmp(p, q)`. -/
def strcmpEq (fuel : ℕ) (m : Bytes) (p q : ℕ) : Exec Fault Bool := loop (strcmpTurn m p q) fuel 0

/-- `memcpy(dst, src, n)`. -/
def memcpy (m : Bytes) (dst src n : ℕ) : Exec Fault Bytes := do
  check .overlap (Clear dst n src n)
  return put m dst (m.read src n)

/-! ### Strings -/

/-- The bytes are a string. -/
def IsText (bs : List UInt8) : Prop := ∀ b ∈ bs, b ≠ 0

/-- The string `bs` is at `p`, with its terminator. -/
structure CstrAt (m : Bytes) (p : ℕ) (bs : List UInt8) : Prop where
  /-- It is a string. -/
  text : IsText bs
  /-- Its bytes and the terminator are there. -/
  read : m.read p (bs.length + 1) = bs ++ [0]

theorem length_read (m : Bytes) (p n : ℕ) : (m.read p n).length = n := by simp [Bytes.read]

theorem read_congr {m m' : Bytes} {p n : ℕ} (h : ∀ i ∈ extent p n, m' i = m i) : m'.read p n = m.read p n := by
  refine List.map_congr_left fun i hi => h _ ?_
  have := List.mem_range.1 hi
  rw [mem_extent]
  omega

theorem read_put (m : Bytes) (p : ℕ) (xs : List UInt8) : Bytes.read (put m p xs) p xs.length = xs := window_put m p xs

variable {m : Bytes} {p q : ℕ} {bs cs : List UInt8}

theorem CstrAt.congr {m' : Bytes} (h : CstrAt m p bs) (hsame : ∀ i ∈ extent p (bs.length + 1), m' i = m i) :
    CstrAt m' p bs := ⟨h.text, (read_congr hsame).trans h.read⟩

theorem cstrAt_put (m : Bytes) (p : ℕ) (h : IsText bs) : CstrAt (put m p (bs ++ [0])) p bs := by
  refine ⟨h, ?_⟩
  have hread := read_put m p (bs ++ [0])
  rwa [List.length_append] at hread

theorem CstrAt.byte (h : CstrAt m p bs) {i : ℕ} (hi : i < bs.length) : m (p + i) = bs[i] := by
  have hget : (m.read p (bs.length + 1))[i]? = (bs ++ [0])[i]? := by rw [h.read]
  rw [Bytes.read, List.getElem?_map, List.getElem?_range (by omega), List.getElem?_append_left hi,
    List.getElem?_eq_getElem hi] at hget
  exact Option.some.inj hget

theorem CstrAt.terminated (h : CstrAt m p bs) : m (p + bs.length) = 0 := by
  have hget : (m.read p (bs.length + 1))[bs.length]? = (bs ++ [0])[bs.length]? := by rw [h.read]
  rw [Bytes.read, List.getElem?_map, List.getElem?_range (by omega), List.getElem?_concat_length] at hget
  exact Option.some.inj hget

theorem CstrAt.isCstr (h : CstrAt m p bs) : IsCstr m p bs.length :=
  ⟨fun i hi => by rw [h.byte hi]; exact h.text _ (List.getElem_mem hi), h.terminated⟩

/-- The bytes before the terminator. -/
theorem CstrAt.read_text (h : CstrAt m p bs) : m.read p bs.length = bs := by
  have hread := h.read
  rw [read_succ] at hread
  exact (List.append_inj hread (length_read _ _ _)).1

theorem strlen_ok (h : CstrAt m p bs) {fuel : ℕ} (hf : bs.length < fuel) : strlen fuel m p = .ok bs.length := by
  have hturn : ∀ n, n ≤ bs.length → (∃ n', strlenTurn m p n = .ok (.more n') ∧ n' ≤ bs.length ∧
      bs.length - n' < bs.length - n) ∨ ∃ r, strlenTurn m p n = .ok (.done r) ∧ r = bs.length := fun n hn => by
    rcases Nat.lt_or_eq_of_le hn with hlt | rfl
    · exact .inl ⟨n + 1, if_neg (h.isCstr.ne_zero n hlt), hlt, by omega⟩
    · exact .inr ⟨_, if_pos h.terminated, rfl⟩
  obtain ⟨n, hn, rfl⟩ := loop_total (fun n => bs.length - n) hturn (Nat.zero_le _) (show bs.length - 0 < fuel by omega)
  exact hn

theorem strcmpEq_ok (h : CstrAt m p bs) (h' : CstrAt m q cs) {fuel : ℕ} (hf : bs.length < fuel) :
    strcmpEq fuel m p q = .ok (decide (bs = cs)) := by
  -- the bytes that were seen are equal
  have hturn : ∀ i, (i ≤ bs.length ∧ i ≤ cs.length ∧ bs.take i = cs.take i) →
      (∃ j, strcmpTurn m p q i = .ok (.more j) ∧ (j ≤ bs.length ∧ j ≤ cs.length ∧ bs.take j = cs.take j) ∧
        bs.length - j < bs.length - i) ∨
      ∃ r, strcmpTurn m p q i = .ok (.done r) ∧ r = decide (bs = cs) := by
    rintro i ⟨hi, hi', htake⟩
    by_cases hne : m (p + i) = m (q + i)
    · by_cases hzero : m (p + i) = 0
      · have hlen : bs.length ≤ i := by
          by_contra hlt
          exact h.isCstr.ne_zero i (by omega) hzero
        have hlen' : cs.length ≤ i := by
          by_contra hlt
          exact h'.isCstr.ne_zero i (by omega) (hne ▸ hzero)
        rw [List.take_of_length_le hlen, List.take_of_length_le hlen'] at htake
        refine .inr ⟨true, ?_, (decide_eq_true htake).symm⟩
        rw [strcmpTurn, if_neg (not_not.2 hne), if_pos hzero]
      · have hlt : i < bs.length := by
          refine lt_of_le_of_ne hi fun heq => hzero ?_
          rw [heq]
          exact h.terminated
        have hlt' : i < cs.length := by
          refine lt_of_le_of_ne hi' fun heq => hzero ?_
          rw [hne, heq]
          exact h'.terminated
        refine .inl ⟨i + 1, ?_, ⟨hlt, hlt', ?_⟩, by omega⟩
        · rw [strcmpTurn, if_neg (not_not.2 hne), if_neg hzero]
        · rw [List.take_succ_eq_append_getElem hlt, List.take_succ_eq_append_getElem hlt', htake, ← h.byte hlt,
            ← h'.byte hlt', hne]
    · refine .inr ⟨false, if_pos hne, (decide_eq_false ?_).symm⟩
      rintro rfl
      rcases Nat.lt_or_eq_of_le hi with hlt | rfl
      · exact hne ((h.byte hlt).trans (h'.byte hlt).symm)
      · exact hne (h.terminated.trans h'.terminated.symm)
  obtain ⟨r, hr, rfl⟩ := loop_total (fun i => bs.length - i) hturn ⟨Nat.zero_le _, Nat.zero_le _, rfl⟩
    (show bs.length - 0 < fuel by omega)
  exact hr

theorem memcpy_ok {dst src n : ℕ} (h : Clear dst n src n) : memcpy m dst src n = .ok (put m dst (m.read src n)) := by
  rw [memcpy, check_pos h]
  rfl

/-! ### Keys -/

/-- The key that the dictionary makes of a string. The terminator is in it. -/
def cstrKey (T : Target) (bs : List UInt8) : Key := ⟨bs.length + 1, foldHash T bs, bs ++ [0]⟩

theorem cstrKey_inj {T : Target} (h : cstrKey T bs = cstrKey T cs) : bs = cs :=
  (List.append_inj_left' (congrArg Key.bytes h) rfl)

variable {T : Target}

/-- What `cop_strh_init_shallow` makes of a string that a `uint_fast32_t` can count. -/
theorem initShallow_eq (h : CstrAt m p bs) (hlen : bs.length + 1 < 2 ^ 32) :
    initShallow T m p bs.length = ⟨bs.length + 1, foldHash T bs, p⟩ := by
  have hle := T.two_pow_le
  rw [initShallow, h.read_text, Nat.mod_eq_of_lt (by omega)]

theorem toKey_initShallow (h : CstrAt m p bs) (hlen : bs.length + 1 < 2 ^ 32) :
    (initShallow T m p bs.length).toKey m = cstrKey T bs := by
  rw [initShallow_eq h hlen, Strh.toKey, h.read]
  rfl

theorem fits_initShallow (h : CstrAt m p bs) (hlen : bs.length + 1 < 2 ^ 32) : (initShallow T m p bs.length).Fits := by
  rw [initShallow_eq h hlen]
  exact ⟨hlen, foldHash_lt T bs⟩

/-! ### Calls with a string -/

section Calls

variable {n fuel : ℕ} {D : Dict ℕ} {w : World ℕ} {t : DigitTree chidNb Ptr}

theorem initShallow_ok (h : CstrAt m p bs) (hlen : bs.length + 1 < 2 ^ 32) (hf : bs.length < fuel) :
    copStrhInitShallow T fuel m p = .ok (initShallow T m p bs.length) :=
  copStrhInitShallow_ok h.isCstr (lt_of_lt_of_le (by omega) T.two_pow_le) hf

theorem nodeInitByCstr_eq (h : CstrAt m p bs) (hlen : bs.length + 1 < 2 ^ 32) (hf : bs.length < fuel) (st : Store ℕ)
    (pNode : Ptr) (pData : ℕ) : copStrdictNodeInitByCstr T fuel m st pNode p pData =
      .ok (copStrdictNodeInit st pNode (initShallow T m p bs.length) pData) := by
  rw [copStrdictNodeInitByCstr, initShallow_ok h hlen hf]
  rfl

variable (h : Holds n D w t) (hs : CstrAt w.mem p bs) (hlen : bs.length + 1 < 2 ^ 32) (hf : bs.length < fuel)
  (hn : n < fuel)

include h hs hlen hf hn

/-- **`cop_strdict_get_by_cstr`** answers with what the key of the string is bound to. -/
theorem getByCstr_ok (store : Bool) :
    copStrdictGetByCstr T fuel w.mem w.store (w.store.get World.root) p store =
      .ok (match D.bound.lookup (cstrKey T bs) with
        | some q => (0, if store then some (D.data q) else none)
        | none => (-1, none)) := by
  have hwalk := h.walk (fits_initShallow (T := T) hs hlen) hn
  rw [← h.mem, toKey_initShallow hs hlen] at hwalk
  rw [copStrdictGetByCstr, bind_of_ok (initShallow_ok hs hlen hf), copStrdictGet]
  simp only [hwalk]
  cases D.bound.lookup (cstrKey T bs) with
  | none => rfl
  | some q => exact congrArg (fun d => Except.ok (0, if store then some d else none)) (h.data q)

/-- **`cop_strdict_update_by_cstr`** of a string that is there. -/
theorem updateByCstr_ok {q : Ptr} (hq : D.bound.lookup (cstrKey T bs) = some q) (v : ℕ) :
    ∃ st t', copStrdictUpdateByCstr T fuel w.mem w.store (w.store.get World.root) p v = .ok (0, st) ∧
      Holds (n + 1) { D with data := Function.update D.data q v } { w with store := st } t' := by
  have hfits := fits_initShallow (T := T) hs hlen
  have hkey : D.bound.lookup ((initShallow T w.mem p bs.length).toKey D.mem) = some q := by
    rw [← h.mem, toKey_initShallow hs hlen, hq]
  obtain ⟨r, w', hstep, hallows, t', ht'⟩ := holds_update (v := v) h hn hfits
  obtain ⟨⟨r, st⟩, hupdate, hstep⟩ := bind_ok hstep
  cases hstep
  obtain rfl : r = 0 := hallows.2 (Finmap.mem_of_lookup_eq_some hkey)
  simp only [Dict.next, hkey] at ht'
  refine ⟨st, t', ?_, ht'⟩
  rw [copStrdictUpdateByCstr, bind_of_ok (initShallow_ok hs hlen hf), hupdate]

/-- **`cop_strdict_delete_by_cstr`** returns what the key was bound to, and unbinds it. -/
theorem deleteByCstr_ok : ∃ st t',
    copStrdictDeleteByCstr T fuel w.mem w.store World.root p = .ok (D.bound.lookup (cstrKey T bs), st) ∧
      Holds (n + 1) { D with bound := D.bound.erase (cstrKey T bs) } { w with store := st } t' := by
  have hfits := fits_initShallow (T := T) hs hlen
  have hkey : (initShallow T w.mem p bs.length).toKey D.mem = cstrKey T bs := by rw [← h.mem, toKey_initShallow hs hlen]
  obtain ⟨r, w', hstep, hallows, t', ht'⟩ := holds_delete h hn hfits
  obtain ⟨⟨r, st⟩, hdelete, hstep⟩ := bind_ok hstep
  cases hstep
  obtain rfl : r = _ := hallows
  rw [Dict.next, hkey] at ht'
  rw [hkey] at hdelete
  refine ⟨st, t', ?_, ht'⟩
  rw [copStrdictDeleteByCstr, bind_of_ok (initShallow_ok hs hlen hf), hdelete]

end Calls

end Cop.Tests
