import Cop.Theory.LinkedTree
import Cop.Strdict.Strtypes

/-!
# The dictionary of `cop_strdict`

`cop_strdict.c` and the internal part of `cop_strdict.h`. A dictionary is a root
pointer and the nodes below it; a node holds a 64-bit key (the length of the key
in the upper half, its hash in the lower), a pointer to the bytes of the key, a
data pointer, and four child pointers. The children of a node are numbered by two
bits of the key, the lowest two at the root.

## The model

* A `Store` holds the caller's root variables and the nodes; nodes are addressed by
  `Ptr`, and `struct cop_strdict_node **` is a `Loc`, a root variable or a child
  pointer of a node. A null pointer is `none`.
* The bytes of keys are in a memory of their own, `Bytes`.
* `while` loops are `Theory.loop`s over the local variables they change. The loop that
  looks for a key is the same in `cop_strdict_get` and `cop_strdict_update`
  (`walkTurn`) and in `cop_strdict_insert` and `cop_strdict_delete` (`searchTurn`).
* Data pointers are of a type `δ`; the dictionary never looks at them.

Assigning to `*pp_value` is returning the value that is assigned, if there is one.
-/

namespace Cop.Strdict

open Theory

/-- `COP_STRDICT_CHID_BITS`. -/
def chidBits : ℕ := 2

/-- `COP_STRDICT_CHID_NB`, `1u<<COP_STRDICT_CHID_BITS`. -/
abbrev chidNb : ℕ := 4

/-- `COP_STRDICT_CHID_MASK`. -/
def chidMask : ℕ := chidNb - 1

example : chidNb = 1 <<< chidBits := rfl

/-- `x & COP_STRDICT_CHID_MASK`, as the number of a child. -/
def chid (x : ℕ) : Fin chidNb := ⟨x &&& chidMask, Nat.lt_succ_of_le Nat.and_le_right⟩

/-- Pointers to nodes. -/
abbrev Ptr := ℕ

/-- `struct cop_strdict_node`. -/
structure Node (δ : Type) where
  /-- Lower 32 bits is the hash. Upper 32 bits is the key data length. -/
  key : ℕ
  /-- The address of the bytes of the key. -/
  keyData : ℕ
  /-- Current value of the node data pointer. -/
  data : δ
  /-- Pointers to child nodes. -/
  kids : Fin chidNb → Option Ptr

/-- The root variables of the caller, and the nodes. -/
structure Store (δ : Type) where
  /-- The root variables. -/
  vars : ℕ → Option Ptr
  /-- The nodes. -/
  nodes : Ptr → Node δ

/-- `struct cop_strdict_node **`. -/
abbrev Loc := Slot ℕ Ptr chidNb

variable {δ : Type}

namespace Store

/-- The pointers in the store. -/
def links (st : Store δ) : Links ℕ Ptr chidNb := ⟨st.vars, fun p => (st.nodes p).kids⟩

/-- `*ℓ`. -/
def get (st : Store δ) (ℓ : Loc) : Option Ptr := st.links.get ℓ

/-- `*p = n`. -/
def setNode (st : Store δ) (p : Ptr) (n : Node δ) : Store δ := { st with nodes := Function.update st.nodes p n }

/-- `*ℓ = q`. -/
def set (st : Store δ) : Loc → Option Ptr → Store δ
  | .root v, q => { st with vars := Function.update st.vars v q }
  | .kid p i, q => st.setNode p { st.nodes p with kids := Function.update (st.nodes p).kids i q }

/-- `p->data = d`. -/
def setData (st : Store δ) (p : Ptr) (d : δ) : Store δ := st.setNode p { st.nodes p with data := d }

end Store

/-! ### Keys -/

/-- `getikey`, in a `uint_fast64_t`. -/
def getikey (pStr : Strh) : ℕ := (pStr.len <<< 32) % 2 ^ 64 ||| pStr.hash

/-- `keytolen`. -/
def keytolen (key : ℕ) : ℕ := (key >>> 32) % 2 ^ 32

/-- `p->key == ikey && !memcmp(p->key_data, ptr, len)`. -/
def keyMatches (m : Bytes) (st : Store δ) (ikey ptr len : ℕ) (p : Ptr) : Bool :=
  (st.nodes p).key == ikey && memcmpEq m (st.nodes p).keyData ptr len

/-! ### Node initialisation -/

/-- `cop_strdict_node_init`. -/
def copStrdictNodeInit (st : Store δ) (pNode : Ptr) (pStrh : Strh) (pData : δ) : Store δ :=
  st.setNode pNode { key := getikey pStrh, keyData := pStrh.ptr, data := pData, kids := fun _ => none }

/-- `cop_strdict_node_init_by_cstr`. -/
def copStrdictNodeInitByCstr (T : Target) (fuel : ℕ) (m : Bytes) (st : Store δ) (pNode : Ptr)
    (pPersistentCstr : ℕ) (pData : δ) : Exec Fault (Store δ) := do
  let s ← copStrhInitShallow T fuel m pPersistentCstr
  return copStrdictNodeInit st pNode s pData

/-! ### Retrieval and modification -/

/-- The loop of `cop_strdict_get` and `cop_strdict_update`, on `p_root` and `ukey`. It
leaves with the node it looks for. -/
def walkTurn (st : Store δ) (hit : Ptr → Bool) : Option Ptr × ℕ → Exec Fault (Turn (Option Ptr × ℕ) (Option Ptr))
  | (none, _) => .ok (.done none)
  | (some pRoot, ukey) =>
    if hit pRoot then .ok (.done (some pRoot))
    else .ok (.more (st.get (.kid pRoot (chid ukey)), ukey >>> chidBits))

/-- `cop_strdict_get`: the return value, and what is assigned to `*pp_value`. The value
is assigned if `pp_value` is not null, which is what `store` says. -/
def copStrdictGet (fuel : ℕ) (m : Bytes) (st : Store δ) (pRoot : Option Ptr) (pKey : Strh) (store : Bool) :
    Exec Fault (ℤ × Option δ) := do
  let ikey := getikey pKey
  match ← loop (walkTurn st (keyMatches m st ikey pKey.ptr pKey.len)) fuel (pRoot, ikey) with
  | none => return (-1, none)
  | some p => return (0, if store then some (st.nodes p).data else none)

/-- `cop_strdict_update`. -/
def copStrdictUpdate (fuel : ℕ) (m : Bytes) (st : Store δ) (pRoot : Option Ptr) (pKey : Strh) (pValue : δ) :
    Exec Fault (ℤ × Store δ) := do
  let ikey := getikey pKey
  match ← loop (walkTurn st (keyMatches m st ikey pKey.ptr pKey.len)) fuel (pRoot, ikey) with
  | none => return (-1, st)
  | some p => return (0, st.setData p pValue)

/-! ### Insertion -/

/-- The loop of `cop_strdict_insert` and `cop_strdict_delete`, on `pp_root`, `*pp_root` and
`ukey`. -/
def searchTurn (st : Store δ) (hit : Ptr → Bool) :
    Loc × Option Ptr × ℕ → Exec Fault (Turn (Loc × Option Ptr × ℕ) (Loc × Option Ptr × ℕ))
  | (ppRoot, none, ukey) => .ok (.done (ppRoot, none, ukey))
  | (ppRoot, some p, ukey) =>
    if hit p then .ok (.done (ppRoot, some p, ukey))
    else
      let ppRoot : Loc := .kid p (chid ukey)
      .ok (.more (ppRoot, st.get ppRoot, ukey >>> chidBits))

/-- `cop_strdict_insert`. -/
def copStrdictInsert (fuel : ℕ) (m : Bytes) (st : Store δ) (ppRoot : Loc) (pItem : Ptr) :
    Exec Fault (ℤ × Store δ) := do
  let item := st.nodes pItem
  let len := keytolen item.key
  let (ppRoot, pNode, _) ←
    loop (searchTurn st (keyMatches m st item.key item.keyData len)) fuel (ppRoot, st.get ppRoot, item.key)
  match pNode with
  | some _ => return (-1, st)
  | none => return (0, st.set ppRoot (some pItem))

/-! ### Deletion -/

/-- `findkid`, with `none` for `-1`. -/
def findkid (st : Store δ) (pNode : Ptr) (offset : ℕ) : Option (Fin chidNb) :=
  (List.range chidNb).findSome? fun i =>
    let kid := chid (i + offset)
    if st.get (.kid pNode kid) ≠ none then some kid else none

/-- The `for` loop that exchanges the children of two nodes. -/
def swapKids (st : Store δ) (pRet pKid : Ptr) : Store δ :=
  (List.finRange chidNb).foldl (fun st i =>
    let pTmp := st.get (.kid pRet i)
    let st := st.set (.kid pRet i) (st.get (.kid pKid i))
    st.set (.kid pKid i) pTmp) st

/-- The second loop of `cop_strdict_delete`, on the store, `pp_root` and `ukey`. -/
def deleteTurn (pRet : Ptr) : Store δ × Loc × ℕ → Exec Fault (Turn (Store δ × Loc × ℕ) (Store δ × Loc))
  | (st, ppRoot, ukey) =>
    match findkid st pRet ukey with
    | none => .ok (.done (st, ppRoot))
    | some kidIdx =>
      match st.get (.kid pRet kidIdx) with
      | none => .error (.fault .nullDeref)
      | some pKid =>
        let st := swapKids st pRet pKid
        let st := st.set ppRoot (some pKid)
        let ppRoot : Loc := .kid pKid kidIdx
        let st := st.set ppRoot (some pRet)
        .ok (.more (st, ppRoot, ukey >>> chidBits))

/-- `cop_strdict_delete`. -/
def copStrdictDelete (fuel : ℕ) (m : Bytes) (st : Store δ) (ppRoot : Loc) (pKey : Strh) :
    Exec Fault (Option Ptr × Store δ) := do
  let ikey := getikey pKey
  let (ppRoot, pRet, ukey) ←
    loop (searchTurn st (keyMatches m st ikey pKey.ptr pKey.len)) fuel (ppRoot, st.get ppRoot, ikey)
  match pRet with
  | none => return (none, st)
  | some pRet =>
    let (st, ppRoot) ← loop (deleteTurn pRet) fuel (st, ppRoot, ukey)
    return (some pRet, st.set ppRoot none)

/-! ### Null-terminated keys -/

/-- `cop_strdict_get_by_cstr`. -/
def copStrdictGetByCstr (T : Target) (fuel : ℕ) (m : Bytes) (st : Store δ) (pRoot : Option Ptr) (pKey : ℕ)
    (store : Bool) : Exec Fault (ℤ × Option δ) := do
  let s ← copStrhInitShallow T fuel m pKey
  copStrdictGet fuel m st pRoot s store

/-- `cop_strdict_update_by_cstr`. -/
def copStrdictUpdateByCstr (T : Target) (fuel : ℕ) (m : Bytes) (st : Store δ) (pRoot : Option Ptr) (pKey : ℕ)
    (pValue : δ) : Exec Fault (ℤ × Store δ) := do
  let s ← copStrhInitShallow T fuel m pKey
  copStrdictUpdate fuel m st pRoot s pValue

/-- `cop_strdict_delete_by_cstr`. -/
def copStrdictDeleteByCstr (T : Target) (fuel : ℕ) (m : Bytes) (st : Store δ) (ppRoot : Loc) (pKey : ℕ) :
    Exec Fault (Option Ptr × Store δ) := do
  let s ← copStrhInitShallow T fuel m pKey
  copStrdictDelete fuel m st ppRoot s

/-! ### What the store operations read and write -/

/-- What a node holds besides its children: key, address of the key's bytes, data. -/
def Node.item (n : Node δ) : ℕ × ℕ × δ := (n.key, n.keyData, n.data)

namespace Store

@[simp] theorem links_kid (st : Store δ) (p : Ptr) : st.links.kid p = (st.nodes p).kids := rfl
@[simp] theorem get_kid (st : Store δ) (p : Ptr) (i : Fin chidNb) : st.get (.kid p i) = (st.nodes p).kids i := rfl

@[simp] theorem get_set_self (st : Store δ) (ℓ : Loc) (q : Option Ptr) : (st.set ℓ q).get ℓ = q := by
  cases ℓ <;> simp [get, set, setNode, links, Links.get]

theorem get_set_of_ne (st : Store δ) {ℓ ℓ' : Loc} (h : ℓ' ≠ ℓ) (q : Option Ptr) :
    (st.set ℓ q).get ℓ' = st.get ℓ' := by
  cases ℓ with
  | root v =>
    cases ℓ' with
    | root v' => simp [get, set, links, Links.get, Function.update_of_ne (show v' ≠ v from fun e => h (by rw [e]))]
    | kid p i => rfl
  | kid p i =>
    cases ℓ' with
    | root v' => rfl
    | kid p' i' =>
      by_cases hp : p' = p
      · subst hp
        have hi : i' ≠ i := fun e => h (by rw [e])
        simp [set, setNode, Function.update_of_ne hi]
      · simp [set, setNode, Function.update_of_ne hp]

theorem get_set (st : Store δ) (ℓ ℓ' : Loc) (q : Option Ptr) :
    (st.set ℓ q).get ℓ' = if ℓ' = ℓ then q else st.get ℓ' := by
  split
  · rename_i h
    rw [h, get_set_self]
  · rename_i h
    exact st.get_set_of_ne h q

@[simp] theorem item_set (st : Store δ) (ℓ : Loc) (q : Option Ptr) (p : Ptr) :
    ((st.set ℓ q).nodes p).item = (st.nodes p).item := by
  cases ℓ with
  | root v => rfl
  | kid p' i =>
    by_cases hp : p = p'
    · subst hp
      simp [set, setNode, Node.item]
    · simp [set, setNode, Function.update_of_ne hp]

end Store

end Cop.Strdict
