import ZTask.Harbor.Queue
import ZTask.Lib.Chains

/-!
# Global names

The hash table of a harbor: the handle of each global name that is known, and the messages to names
that are not. Two names are the same to the table when their hashes agree and so do their texts, up
to the first zero byte: what stands behind it is compared by neither.
-/

namespace ZTask

open Lib

def hashSize : UInt32 := 4096

/-- `char name[GLOBALNAME_LENGTH]`. -/
structure GlobalName where
  bytes : List UInt8
  length_eq : bytes.length = globalnameLength
deriving DecidableEq

namespace GlobalName

/-- The four bytes at a time that `(uint32_t *)name` reads, in the byte order of the machine. -/
def words : List UInt8 → List UInt32
  | b₀ :: b₁ :: b₂ :: b₃ :: rest => fromBigendian b₃ b₂ b₁ b₀ :: words rest
  | _ => []

def hash (name : GlobalName) : UInt32 := (words name.bytes).foldl (· ^^^ ·) 0

/-- What `strncmp` compares and `%s` prints. -/
def text (name : GlobalName) : List UInt8 := name.bytes.takeWhile (· ≠ 0)

/-- What `hash_search` looks for. -/
def id (name : GlobalName) : UInt32 × List UInt8 := (name.hash, name.text)

/-- A name written into a zeroed array. -/
def pad (text : List UInt8) (h : text.length ≤ globalnameLength) : GlobalName where
  bytes := text ++ List.replicate (globalnameLength - text.length) 0
  length_eq := by rw [List.length_append, List.length_replicate]; omega

end GlobalName

/-- `struct keyvalue`; its `hash` is the hash of the key. -/
structure KeyValue where
  key : GlobalName
  value : UInt32
  queue : Option HarborMsgQueue

abbrev HarborMap := ℕ → List KeyValue

/-- How names are filed. -/
def names : Chaining KeyValue (UInt32 × List UInt8) where
  key node := node.key.id
  slot id := (id.1 % hashSize).toNat

def hashNew : HarborMap := fun _ ↦ []

def hashSearch (hash : HarborMap) (name : GlobalName) : Option KeyValue := names.find? hash name.id

def hashInsert (hash : HarborMap) (name : GlobalName) : KeyValue × HarborMap :=
  (⟨name, 0, none⟩, names.insert hash ⟨name, 0, none⟩)

/-- `hash_search`, and `hash_insert` if nothing is found. -/
def searchOrInsert (hash : HarborMap) (name : GlobalName) : KeyValue × HarborMap :=
  match hashSearch hash name with
  | some node => (node, hash)
  | none => hashInsert hash name

/-! ## What a table says of a name -/

/-- The messages in a queue that may not have been created. -/
def queued (queue : Option HarborMsgQueue) : List HarborMsg := (queue.map (·.toList)).getD []

@[simp] theorem queued_none : queued none = [] := rfl

@[simp] theorem queued_some (queue : HarborMsgQueue) : queued (some queue) = queue.toList := rfl

/-- The handle of a name; 0 if it is not known. -/
def valueOf (hash : HarborMap) (id : UInt32 × List UInt8) : UInt32 :=
  ((names.find? hash id).map (·.value)).getD 0

/-- The messages that wait for the name to be known. -/
def pendingOf (hash : HarborMap) (id : UInt32 × List UInt8) : List HarborMsg :=
  ((names.find? hash id).map fun node ↦ queued node.queue).getD []

variable {hash : HarborMap} {name : GlobalName}

theorem searchOrInsert_fst (hash : HarborMap) (name : GlobalName) :
    (searchOrInsert hash name).1.key.id = name.id ∧
    (searchOrInsert hash name).1.value = valueOf hash name.id ∧
    queued (searchOrInsert hash name).1.queue = pendingOf hash name.id := by
  rw [searchOrInsert, hashSearch]
  cases h : names.find? hash name.id with
  | none => simp [hashInsert, valueOf, pendingOf, h]
  | some node =>
    refine ⟨Chaining.key_of_find? h, ?_, ?_⟩
    · simp [valueOf, h]
    · simp [pendingOf, h]

/-- Once the node for a name is there, writing it changes that name alone. -/
theorem find?_replace_searchOrInsert {node : KeyValue} (hkey : node.key.id = name.id)
    (id : UInt32 × List UInt8) :
    names.find? (names.replace (searchOrInsert hash name).2 node) id =
      if name.id = id then some node else names.find? hash id := by
  have hkey' : names.key node = name.id := hkey
  rw [Chaining.find?_replace, hkey']
  by_cases hid : name.id = id
  · subst hid
    rw [if_pos rfl, if_pos rfl, searchOrInsert, hashSearch]
    cases h : names.find? hash name.id with
    | none =>
      simp only [hashInsert, Chaining.find?_insert]
      rw [if_pos (show names.key ⟨name, 0, none⟩ = name.id from rfl), Option.map_some]
    | some old => simp only [h, Option.map_some]
  · rw [if_neg hid, if_neg hid, searchOrInsert, hashSearch]
    cases names.find? hash name.id with
    | none =>
      simp only [hashInsert, Chaining.find?_insert]
      rw [if_neg (show ¬ names.key ⟨name, 0, none⟩ = id from hid)]
    | some old => rfl

theorem valueOf_replace (node : KeyValue) (hkey : node.key.id = name.id)
    (id : UInt32 × List UInt8) :
    valueOf (names.replace (searchOrInsert hash name).2 node) id =
      if name.id = id then node.value else valueOf hash id := by
  rw [valueOf, find?_replace_searchOrInsert hkey]
  split <;> rfl

theorem pendingOf_replace (node : KeyValue) (hkey : node.key.id = name.id)
    (id : UInt32 × List UInt8) :
    pendingOf (names.replace (searchOrInsert hash name).2 node) id =
      if name.id = id then queued node.queue else pendingOf hash id := by
  rw [pendingOf, find?_replace_searchOrInsert hkey]
  split <;> rfl

end ZTask
