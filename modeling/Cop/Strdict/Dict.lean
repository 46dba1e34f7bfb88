import Cop.Strdict.Model
import Cop.Theory.Contract
import Mathlib.Data.Finmap

/-!
# What a dictionary is for

A dictionary binds keys to nodes. A key is a length, a hash and as many bytes;
that two keys share length and hash does not make them the same. `contract` says
what the calls of `cop_strdict.h` do to a finite map from keys to nodes, without
a word about trees, and what the header asks of the caller: a node is initialised
before it is inserted, is not initialised again while it is in the dictionary, and
the bytes of its key do not change while it is in the dictionary. Between calls the
caller may write to memory as it likes otherwise (`Call.poke`); a node that was
deleted may be inserted again as it is.

`World` and `World.step` are the same calls made on the program.
-/

namespace Cop.Strdict

open Theory

/-- A key: the length, the hash, and the bytes. -/
structure Key where
  /-- The number of bytes. -/
  len : ℕ
  /-- The hash. -/
  hash : ℕ
  /-- The bytes. -/
  bytes : List UInt8
  deriving DecidableEq

/-- The key a `cop_strh` stands for. -/
def Strh.toKey (m : Bytes) (s : Strh) : Key := ⟨s.len, s.hash, m.read s.ptr s.len⟩

/-- Length and hash are within 32 bits. -/
structure Strh.Fits (s : Strh) : Prop where
  /-- The length. -/
  len : s.len < 2 ^ 32
  /-- The hash. -/
  hash : s.hash < 2 ^ 32

/-- What a caller does. -/
inductive Call (δ : Type) where
  /-- `cop_strdict_node_init(p_node, p_strh, p_data)`. -/
  | init (pNode : Ptr) (pStrh : Strh) (pData : δ)
  /-- `cop_strdict_insert(&root, p_item)`. -/
  | insert (pItem : Ptr)
  /-- `cop_strdict_get(root, p_key, pp_value)`, where `pp_value` may be null. -/
  | get (pKey : Strh) (store : Bool)
  /-- `cop_strdict_update(root, p_key, p_value)`. -/
  | update (pKey : Strh) (pValue : δ)
  /-- `cop_strdict_delete(&root, p_key)`. -/
  | delete (pKey : Strh)
  /-- Write to memory, which then is `m`. -/
  | poke (m : Bytes)

/-- What comes back. -/
inductive Ret (δ : Type) where
  /-- Nothing. -/
  | void
  /-- An `int`. -/
  | status (r : ℤ)
  /-- An `int`, and what was assigned to `*pp_value`. -/
  | value (r : ℤ) (stored : Option δ)
  /-- A pointer to a node. -/
  | node (p : Option Ptr)

/-- A dictionary as a finite map. -/
structure Dict (δ : Type) where
  /-- The nodes that are bound, by key. -/
  bound : Finmap fun _ : Key => Ptr
  /-- What each node was last initialised with. -/
  strh : Ptr → Option Strh
  /-- The data of each node. -/
  data : Ptr → δ
  /-- The memory the bytes of keys are in. -/
  mem : Bytes

variable {δ : Type}

namespace Dict

/-- The key of a node, if the node was initialised. -/
def keyOf (D : Dict δ) (p : Ptr) : Option Key := (D.strh p).map (·.toKey D.mem)

/-- Nothing is bound, and no node is initialised. -/
def empty (data : Ptr → δ) (m : Bytes) : Dict δ := ⟨∅, fun _ => none, data, m⟩

/-- What the caller may do. -/
def Legal (D : Dict δ) : Call δ → Prop
  | .init p s _ => (∀ k, D.bound.lookup k ≠ some p) ∧ s.Fits
  | .insert p => D.strh p ≠ none
  | .get s _ | .update s _ | .delete s => s.Fits
  | .poke m => ∀ k p, D.bound.lookup k = some p → ({ D with mem := m } : Dict δ).keyOf p = some k

/-- What the calls do to the map. -/
def next (D : Dict δ) : Call δ → Dict δ
  | .init p s d => { D with strh := Function.update D.strh p (some s), data := Function.update D.data p d }
  | .insert p =>
    match D.keyOf p with
    | some k => if k ∈ D.bound then D else { D with bound := D.bound.insert k p }
    | none => D
  | .get _ _ => D
  | .update s v =>
    match D.bound.lookup (s.toKey D.mem) with
    | some p => { D with data := Function.update D.data p v }
    | none => D
  | .delete s => { D with bound := D.bound.erase (s.toKey D.mem) }
  | .poke m => { D with mem := m }

/-- What the calls return. -/
def Allows (D : Dict δ) : Call δ → Ret δ → Prop
  | .init _ _ _, .void | .poke _, .void => True
  | .insert p, .status r => ∃ k, D.keyOf p = some k ∧ (r = 0 ↔ k ∉ D.bound)
  | .get s store, .value r v =>
    match D.bound.lookup (s.toKey D.mem) with
    | some p => r = 0 ∧ v = if store then some (D.data p) else none
    | none => r ≠ 0 ∧ v = none
  | .update s _, .status r => r = 0 ↔ s.toKey D.mem ∈ D.bound
  | .delete s, .node p => p = D.bound.lookup (s.toKey D.mem)
  | _, _ => False

@[simp] theorem strh_next_insert (D : Dict δ) (p : Ptr) : (D.next (.insert p)).strh = D.strh := by
  simp only [next]
  split
  · split <;> rfl
  · rfl

theorem next_insert {D : Dict δ} {p : Ptr} {k : Key} (hkey : D.keyOf p = some k) (habs : k ∉ D.bound) :
    D.next (.insert p) = { D with bound := D.bound.insert k p } := by
  simp only [next, hkey, habs, if_false]

@[simp] theorem next_get (D : Dict δ) (s : Strh) (store : Bool) : D.next (.get s store) = D := rfl

@[simp] theorem strh_next_delete (D : Dict δ) (s : Strh) : (D.next (.delete s)).strh = D.strh := rfl

@[simp] theorem strh_next_init (D : Dict δ) (p : Ptr) (s : Strh) (d : δ) :
    (D.next (.init p s d)).strh = Function.update D.strh p (some s) := rfl

/-- The contract of the dictionary. -/
def contract : Contract (Dict δ) (Call δ) (Ret δ) := ⟨Legal, next, Allows⟩

end Dict

/-- Byte memory, root variables and nodes. -/
structure World (δ : Type) where
  /-- The memory the bytes of keys are in. -/
  mem : Bytes
  /-- The root variables and the nodes. -/
  store : Store δ

namespace World

/-- The root variable of the dictionary. -/
def root : Loc := .root 0

/-- A call made on the program. -/
def step (fuel : ℕ) (w : World δ) : Call δ → Exec Fault (Ret δ × World δ)
  | .init p s d => return (.void, { w with store := copStrdictNodeInit w.store p s d })
  | .insert p => do
    let (r, st) ← copStrdictInsert fuel w.mem w.store root p
    return (.status r, { w with store := st })
  | .get s store => do
    let (r, v) ← copStrdictGet fuel w.mem w.store (w.store.get root) s store
    return (.value r v, w)
  | .update s v => do
    let (r, st) ← copStrdictUpdate fuel w.mem w.store (w.store.get root) s v
    return (.status r, { w with store := st })
  | .delete s => do
    let (p, st) ← copStrdictDelete fuel w.mem w.store root s
    return (.node p, { w with store := st })
  | .poke m => return (.void, { w with mem := m })

end World

end Cop.Strdict
