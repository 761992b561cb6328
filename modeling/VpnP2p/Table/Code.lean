import VpnP2p.Foundation.Loops

/-!
# The hash table

`table.c` keeps bindings in linked lists, one for each bucket. A search walks a bucket and
stops at the first binding of its key; `Table_put` puts a new binding in front, and
`Table_remove` takes one out through the pointer that led to it, which is the bucket's own
or the link of the binding in front.
-/

namespace VpnP2p.Table

open Foundation

/-- A `const void *key` that the asserts let through. -/
abbrev Key := {key : UInt64 // key ≠ 0}

/-- A `void *value`; 0 is NULL. -/
abbrev Value := UInt64

structure Binding where
  link : Ptr
  key : Option Key
  value : Option Value
deriving DecidableEq

/-- A cell from `malloc`, or one that was freed. -/
def Binding.raw : Binding := ⟨.unassigned, none, none⟩

/-- `struct T`. -/
structure T where
  size : Int32
  cmp : Key → Key → Int32
  hash : Key → UInt32
  length : Int32
  timestamp : UInt32
  buckets : List Ptr

def cmpatom (x y : Key) : Int32 := if x ≠ y then 1 else 0

def hashatom (key : Key) : UInt32 := (key.val >>> 2).toUInt32

/-! ## `Table_new` -/

def primes : List Int32 :=
  [509, 509, 1021, 2053, 4093, 8191, 16381, 32771, 65521, Int32.maxValue]

/-- `primes[i]`. -/
def prime (i : Nat) : Result Int32 := (primes[i]?).elim (.error .outOfBounds) .ok

/-- `for (i = ..; primes[i] < hint; i++)`, where it ends. -/
def searchPrime (hint : Int32) : Nat → Nat → Result Nat
  | 0, _ => .error .diverges
  | fuel + 1, i => do
    let p ← prime i
    if p < hint then searchPrime hint fuel (i + 1) else .ok i

/-- `for (i = 0; i < size; i++) buckets[i] = NULL`. -/
def clearBuckets (size : Nat) : List Ptr :=
  (List.range size).foldl (fun buckets i => buckets.set i .null) (List.replicate size .unassigned)

/-- `Table_new(hint, cmp, hash)`, for a `hint` that the assert lets through. -/
def tableNew (hint : Int32) (cmp : Option (Key → Key → Int32)) (hash : Option (Key → UInt32)) :
    Result T := do
  let i ← searchPrime hint primes.length 1
  let size ← prime (i - 1)
  .ok {
    size := size
    cmp := cmp.getD cmpatom
    hash := hash.getD hashatom
    length := 0
    timestamp := 0
    buckets := clearBuckets size.toNatClampNeg }

/-! ## Searching -/

/-- `(*table->hash)(key) % table->size`. -/
def T.slot (table : T) (key : Key) : Nat := (table.hash key % table.size.toUInt32).toNat

/-- `table->buckets[i]`. -/
def T.bucket (table : T) (i : Nat) : Result Ptr :=
  (table.buckets[i]?).elim (.error .outOfBounds) .ok

/-- The body of the search, for `p`: it breaks at the key. -/
def meet (cmp : Key → Key → Int32) (m : Mem Binding) (key : Key) (p : Nat) (_ : Unit) :
    Result (Foundation.Flow Unit Nat) := do
  let b ← load m (.addr p)
  let k ← assigned b.key
  if cmp key k = 0 then .ok (.done p) else .ok (.next ())

/-- `p` after the search. -/
def T.search (table : T) (m : Mem Binding) (key : Key) : Result Ptr := do
  let p ← table.bucket (table.slot key)
  match ← forChainFlow (fun _ => m) Binding.link (meet table.cmp m key) (m.length + 1) p () with
  | .done p => .ok (.addr p)
  | .next _ => .ok .null

/-- `Table_get(table, key)`. -/
def tableGet (m : Mem Binding) (table : T) (key : Key) : Result Value := do
  let p ← table.search m key
  if p = .null then .ok 0
  else do
    let b ← load m p
    assigned b.value

/-! ## Changing -/

/-- The bindings in memory, with the table. -/
structure State where
  cells : Mem Binding
  table : T

/-- `Table_put(table, key, value)`. -/
def tablePut (s : State) (key : Key) (value : Value) : Result (State × Value) := do
  let i := s.table.slot key
  let p ← s.table.search s.cells key
  if p = .null then
    let bucket ← s.table.bucket i
    let p := Ptr.addr s.cells.length
    let cells := s.cells ++ [{ Binding.raw with key := some key, link := bucket }]
    let cells ← update cells p (fun b => { b with value := some value })
    let table := { s.table with
      buckets := s.table.buckets.set i p
      length := s.table.length + 1
      timestamp := s.table.timestamp + 1 }
    .ok (⟨cells, table⟩, 0)
  else
    let b ← load s.cells p
    let prev ← assigned b.value
    let cells ← update s.cells p (fun b => { b with value := some value })
    .ok (⟨cells, { s.table with timestamp := s.table.timestamp + 1 }⟩, prev)

/-- `Table_length(table)`. -/
def tableLength (table : T) : Int32 := table.length

/-- What `struct binding **pp` points to. -/
inductive Place where
  | bucket (i : Nat)
  | link (p : Nat)

/-- `*pp`. -/
def Place.read (s : State) : Place → Result Ptr
  | .bucket i => s.table.bucket i
  | .link p => do
    let b ← load s.cells (.addr p)
    .ok b.link

/-- `*pp = q`. -/
def Place.write (s : State) (q : Ptr) : Place → Result State
  | .bucket i =>
    if i < s.table.buckets.length then
      .ok { s with table := { s.table with buckets := s.table.buckets.set i q } }
    else .error .outOfBounds
  | .link p => do
    let cells ← update s.cells (.addr p) (fun b => { b with link := q })
    .ok { s with cells := cells }

/-- The loop of `Table_remove`, from `pp` on. -/
def removeFrom (s : State) (key : Key) : Nat → Place → Result (State × Value)
  | 0, _ => .error .diverges
  | fuel + 1, pp => do
    match ← pp.read s with
    | .unassigned => .error .unassigned
    | .null => .ok (s, 0)
    | .addr p => do
      let b ← load s.cells (.addr p)
      let k ← assigned b.key
      if s.table.cmp key k = 0 then
        let value ← assigned b.value
        let s ← pp.write s b.link
        let cells ← update s.cells (.addr p) (fun _ => .raw)
        .ok (⟨cells, { s.table with length := s.table.length - 1 }⟩, value)
      else removeFrom s key fuel (.link p)

/-- `Table_remove(table, key)`. -/
def tableRemove (s : State) (key : Key) : Result (State × Value) :=
  let s := { s with table := { s.table with timestamp := s.table.timestamp + 1 } }
  removeFrom s key (s.cells.length + 1) (.bucket (s.table.slot key))

/-! ## Sequences of calls -/

inductive Call where
  | put (key : Key) (value : Value)
  | get (key : Key)
  | remove (key : Key)

def Call.key : Call → Key
  | .put key _ => key
  | .get key => key
  | .remove key => key

/-- A call, with what it returns. -/
def Call.exec (s : State) : Call → Result (State × Value)
  | .put key value => tablePut s key value
  | .get key => do
    let value ← tableGet s.cells s.table key
    .ok (s, value)
  | .remove key => tableRemove s key

/-- The calls one after the other, with what they return. -/
def runCalls : List Call → State → Result (State × List Value)
  | [], s => .ok (s, [])
  | call :: calls, s => do
    let (s, value) ← call.exec s
    let (s, values) ← runCalls calls s
    .ok (s, value :: values)

end VpnP2p.Table
