import Mathlib.Data.Finset.Basic
import Mathlib.Logic.Function.Basic
import Mathlib.Tactic.Common
import Mathlib.Tactic.Linarith

/-!
# Fusing and freeing arenas (`hpb/mem/arena.c`)

`hpb_Arena_Fuse` and `hpb_Arena_Free` as the atomic steps that a thread makes on shared memory: every
load, store, exchange and compare-exchange is one step, and what the thread computes in between
belongs to the step before it. Threads are the elements of an arbitrary type; a program counter (`Pc`)
holds the locals of the call that a thread is in.

* `Poc`: the tagged word `parent_or_count`. The count is a natural number here.
* `Pc`, `ArenaSys.step`: the code, one atomic step at a time. `none` is an access to memory of an
  arena that does not exist (any more).
* `ArenaSys.Legal`, `ArenaSys.exec`: the calls a client may make. A handle is used only while it is
  unfreed, and freed by one call that no other call with that handle overlaps.

Some fields are history: they record what happened and no step reads them. `handle` is true from
`hpb_Arena_New` until the step of `hpb_Arena_Free` that gives the reference up; `cls` names the fused
class of an arena, `serial` numbers the arenas in the order of their creation (an address can be used
again), and `freed` lists those whose memory was given back. An arena made by `hpb_Arena_New` owns one
block, the one it lies in, so freeing an arena is freeing its block.
-/

namespace Hpb

/-- The address of an arena. -/
abbrev Addr : Type := Nat

/-- The tagged word `parent_or_count`. -/
inductive Poc where
  | parent (p : Addr)
  | count (n : Nat)
  deriving DecidableEq

/-- Inside `_hpb_Arena_FindRoot`. -/
inductive Find where
  /-- Before the first load, of `a->parent_or_count`. -/
  | load (a : Addr)
  /-- `poc` of `a` was the pointer `next`; before the load of `next->parent_or_count`. -/
  | next (a next : Addr)
  /-- `next_poc` was the pointer `p`; before the store to `a->parent_or_count`. -/
  | split (a next p : Addr)
  deriving DecidableEq

/-- Inside `_hpb_Arena_DoFuseArenaLists(parent, child)`. -/
inductive Lists where
  /-- Before the load of `parent->tail`. -/
  | tail (child : Addr)
  /-- Before a load of `parent_tail->next`. -/
  | walk (parentTail child : Addr)
  /-- Before the exchange of `parent_tail->next`. -/
  | exchange (parentTail child : Addr)
  /-- Before the load of `child->tail`. -/
  | childTail (child : Addr) (displaced : Option Addr)
  /-- Before the store to `parent->tail`. -/
  | store (parentTail : Addr)
  deriving DecidableEq

/-- Inside `hpb_Arena_Fuse`. -/
inductive Fuse where
  | find1 (f : Find)
  | find2 (r1 : Addr) (count1 : Nat) (f : Find)
  /-- Before the compare-exchange that adds the references of `r2` to `r1`. -/
  | addRefs (r1 : Addr) (count1 : Nat) (r2 : Addr) (count2 : Nat)
  /-- Before the compare-exchange that makes `r1` the parent of `r2`. -/
  | reparent (r1 r2 : Addr) (count2 : Nat)
  | lists (parent : Addr) (l : Lists)
  /-- Before the load of `_hpb_Arena_FixupRefs`. -/
  | fixup (newRoot : Addr)
  /-- Before the compare-exchange of `_hpb_Arena_FixupRefs`. -/
  | fixupCas (newRoot : Addr) (count : Nat)
  deriving DecidableEq

/-- Inside `hpb_Arena_Free`. -/
inductive Free where
  /-- Before a load of `a->parent_or_count`. -/
  | load (a : Addr)
  /-- Before the weak compare-exchange on `a`. -/
  | cas (a : Addr) (count : Nat)
  /-- In `arena_dofree`, before the load of `a->next`. -/
  | next (a : Addr)
  /-- In `arena_dofree`, before the blocks of `a` are freed. -/
  | blocks (a : Addr) (next : Option Addr)
  deriving DecidableEq

/-- Where a thread is. -/
inductive Pc where
  | idle
  /-- In `hpb_Arena_Fuse(a1, a2)`, with its `ref_delta`. -/
  | fuse (a1 a2 : Addr) (refDelta : Nat) (p : Fuse)
  /-- In `hpb_Arena_Free(a)`. -/
  | free (a : Addr) (p : Free)
  deriving DecidableEq

/-- The handles that a call still needs. -/
def Pc.args : Pc → List Addr
  | .idle => []
  | .fuse a1 a2 _ _ => [a1, a2]
  | .free a (.load _) => [a]
  | .free a (.cas _ _) => [a]
  | .free _ (.next _) => []
  | .free _ (.blocks _ _) => []

/-- Shared memory, threads and history. -/
structure ArenaSys (T : Type) where
  /-- The arenas in memory. -/
  arenas : Finset Addr
  parentOrCount : Addr → Poc
  next : Addr → Option Addr
  tail : Addr → Addr
  /-- `hpb_Arena_HasInitialBlock`. -/
  initial : Addr → Bool
  pc : T → Pc
  handle : Addr → Bool
  cls : Addr → Nat
  serial : Addr → Nat
  issued : Nat
  freed : List Nat

namespace ArenaSys

variable {T : Type} [DecidableEq T]

/-- No arena yet. -/
def start : ArenaSys T :=
  { arenas := ∅
    parentOrCount := fun _ => .count 0
    next := fun _ => none
    tail := fun a => a
    initial := fun _ => false
    pc := fun _ => .idle
    handle := fun _ => false
    cls := fun _ => 0
    serial := fun _ => 0
    issued := 0
    freed := [] }

/-- Thread `t` continues at `p`. -/
def goto (s : ArenaSys T) (t : T) (p : Pc) : ArenaSys T := { s with pc := Function.update s.pc t p }

/-- A load of `a->parent_or_count`. -/
def loadPoc (s : ArenaSys T) (a : Addr) : Option Poc :=
  if a ∈ s.arenas then some (s.parentOrCount a) else none

/-- A load of `a->next`. -/
def loadNext (s : ArenaSys T) (a : Addr) : Option (Option Addr) :=
  if a ∈ s.arenas then some (s.next a) else none

/-- A load of `a->tail`. -/
def loadTail (s : ArenaSys T) (a : Addr) : Option Addr :=
  if a ∈ s.arenas then some (s.tail a) else none

def setPoc (s : ArenaSys T) (a : Addr) (v : Poc) : ArenaSys T :=
  { s with parentOrCount := Function.update s.parentOrCount a v }

def setNext (s : ArenaSys T) (a : Addr) (v : Option Addr) : ArenaSys T :=
  { s with next := Function.update s.next a v }

def setTail (s : ArenaSys T) (a v : Addr) : ArenaSys T :=
  { s with tail := Function.update s.tail a v }

/-- History: the handle `a` is given up. -/
def release (s : ArenaSys T) (a : Addr) : ArenaSys T :=
  { s with handle := Function.update s.handle a false }

/-- History: the class of `r2` becomes a part of the class of `r1`. -/
def merge (s : ArenaSys T) (r1 r2 : Addr) : ArenaSys T :=
  { s with cls := fun x => if s.cls x = s.cls r2 then s.cls r1 else s.cls x }

/-- One step of `_hpb_Arena_FindRoot`: it goes on, or returns the root and its count. -/
def stepFind (s : ArenaSys T) : Find → Option (ArenaSys T × (Find ⊕ (Addr × Nat)))
  | .load a => do
    match ← s.loadPoc a with
    | .count n => return (s, .inr (a, n))
    | .parent p => return (s, .inl (.next a p))
  | .next a next => do
    match ← s.loadPoc next with
    | .count n => return (s, .inr (next, n))
    | .parent p => return (s, .inl (.split a next p))
  | .split a next p => do
    -- path splitting
    let _ ← s.loadPoc a
    return (s.setPoc a (.parent p), .inl (.next next p))

/-- `_hpb_Arena_DoFuse` returned `newRoot`; without excess references the call is over. -/
def fused (a1 a2 : Addr) (refDelta : Nat) (newRoot : Addr) : Pc :=
  if refDelta = 0 then .idle else .fuse a1 a2 refDelta (.fixup newRoot)

/-- The next attempt of `hpb_Arena_Fuse`. -/
def retry (a1 a2 : Addr) (refDelta : Nat) : Pc := .fuse a1 a2 refDelta (.find1 (.load a1))

/-- One step of `_hpb_Arena_DoFuseArenaLists(parent, ...)`; `none` at the end. -/
def stepLists (s : ArenaSys T) (parent : Addr) : Lists → Option (ArenaSys T × Option Lists)
  | .tail child => do
    let parentTail ← s.loadTail parent
    return (s, some (.walk parentTail child))
  | .walk parentTail child => do
    match ← s.loadNext parentTail with
    | some n => return (s, some (.walk n child))
    | none => return (s, some (.exchange parentTail child))
  | .exchange parentTail child => do
    let displaced ← s.loadNext parentTail
    return (s.setNext parentTail (some child), some (.childTail child displaced))
  | .childTail child displaced => do
    let parentTail ← s.loadTail child
    -- if we displaced something that got installed racily, reinstall it on our new tail
    match displaced with
    | some d => return (s, some (.walk parentTail d))
    | none => return (s, some (.store parentTail))
  | .store parentTail => do
    let _ ← s.loadTail parent
    return (s.setTail parent parentTail, none)

/-- One step of `hpb_Arena_Fuse(a1, a2)` by thread `t`. -/
def stepFuse (s : ArenaSys T) (t : T) (a1 a2 : Addr) (refDelta : Nat) :
    Fuse → Option (ArenaSys T)
  | .find1 f => do
    match ← s.stepFind f with
    | (s, .inl f) => return s.goto t (.fuse a1 a2 refDelta (.find1 f))
    | (s, .inr (r1, c1)) => return s.goto t (.fuse a1 a2 refDelta (.find2 r1 c1 (.load a2)))
  | .find2 r1 c1 f => do
    match ← s.stepFind f with
    | (s, .inl f) => return s.goto t (.fuse a1 a2 refDelta (.find2 r1 c1 f))
    | (s, .inr (r2, c2)) =>
      if r1 = r2 then return s.goto t (fused a1 a2 refDelta r1)
      -- avoid cycles by always fusing into the root with the lower address
      else if r2 < r1 then return s.goto t (.fuse a1 a2 refDelta (.addRefs r2 c2 r1 c1))
      else return s.goto t (.fuse a1 a2 refDelta (.addRefs r1 c1 r2 c2))
  | .addRefs r1 c1 r2 c2 => do
    let poc ← s.loadPoc r1
    if poc = .count c1 then
      return (s.setPoc r1 (.count (c1 + c2))).goto t (.fuse a1 a2 refDelta (.reparent r1 r2 c2))
    else return s.goto t (retry a1 a2 refDelta)
  | .reparent r1 r2 c2 => do
    let poc ← s.loadPoc r2
    if poc = .count c2 then
      return ((s.setPoc r2 (.parent r1)).merge r1 r2).goto t
        (.fuse a1 a2 refDelta (.lists r1 (.tail r2)))
    -- we'll need to remove the excess refs we added to `r1` previously
    else return s.goto t (retry a1 a2 (refDelta + c2))
  | .lists parent l => do
    match ← s.stepLists parent l with
    | (s, some l) => return s.goto t (.fuse a1 a2 refDelta (.lists parent l))
    | (s, none) => return s.goto t (fused a1 a2 refDelta parent)
  | .fixup newRoot => do
    match ← s.loadPoc newRoot with
    | .parent _ => return s.goto t (retry a1 a2 refDelta)
    | .count n => return s.goto t (.fuse a1 a2 refDelta (.fixupCas newRoot n))
  | .fixupCas newRoot n => do
    let poc ← s.loadPoc newRoot
    if poc = .count n then
      return (s.setPoc newRoot (.count (n - refDelta))).goto t .idle
    else return s.goto t (retry a1 a2 refDelta)

/-- `hpb_Arena_Free(handle)` with the word `poc` of `a` just read. The last reference is given up by
seeing that it is the last one. -/
def freeWith (s : ArenaSys T) (t : T) (handle a : Addr) : Poc → ArenaSys T
  | .parent p => s.goto t (.free handle (.load p))
  | .count n =>
    if n = 1 then (s.release handle).goto t (.free handle (.next a))
    else s.goto t (.free handle (.cas a n))

/-- One step of `hpb_Arena_Free(handle)` by thread `t`; a weak compare-exchange may fail without a
reason. -/
def stepFree (s : ArenaSys T) (t : T) (handle : Addr) (spurious : Bool) :
    Free → Option (ArenaSys T)
  | .load a => do
    let poc ← s.loadPoc a
    return s.freeWith t handle a poc
  | .cas a n => do
    let poc ← s.loadPoc a
    if poc = .count n ∧ ¬spurious then
      return ((s.setPoc a (.count (n - 1))).release handle).goto t .idle
    else return s.freeWith t handle a poc
  | .next a => do
    let next ← s.loadNext a
    return s.goto t (.free handle (.blocks a next))
  | .blocks a next => do
    let _ ← s.loadNext a
    let s := { s with arenas := s.arenas.erase a, freed := s.serial a :: s.freed }
    match next with
    | some n => return s.goto t (.free handle (.next n))
    | none => return s.goto t .idle

/-- One atomic step of thread `t`; an idle thread has none. -/
def step (s : ArenaSys T) (t : T) (spurious : Bool) : Option (ArenaSys T) :=
  match s.pc t with
  | .idle => some s
  | .fuse a1 a2 refDelta p => s.stepFuse t a1 a2 refDelta p
  | .free a p => s.stepFree t a spurious p

/-- What a thread does next. -/
inductive Act where
  /-- `hpb_Arena_New`, at an address the allocator chose; or `hpb_Arena_Init` with a block. -/
  | new (a : Addr) (initial : Bool)
  | fuse (a1 a2 : Addr)
  | free (a : Addr)
  | step (spurious : Bool)
  deriving DecidableEq

/-- `hpb_Arena_New`. -/
def new (s : ArenaSys T) (a : Addr) (initial : Bool) : ArenaSys T :=
  { s with
    arenas := insert a s.arenas
    parentOrCount := Function.update s.parentOrCount a (.count 1)
    next := Function.update s.next a none
    tail := Function.update s.tail a a
    initial := Function.update s.initial a initial
    handle := Function.update s.handle a true
    cls := Function.update s.cls a s.issued
    serial := Function.update s.serial a s.issued
    issued := s.issued + 1 }

/-- Thread `t` calls a function or makes a step of the call it is in. -/
def exec (s : ArenaSys T) (t : T) : Act → Option (ArenaSys T)
  | .new a initial => some (s.new a initial)
  | .fuse a1 a2 =>
    if a1 = a2 then some s
    else if s.initial a1 ∨ s.initial a2 then some s
    else some (s.goto t (retry a1 a2 0))
  | .free a => some (s.goto t (.free a (.load a)))
  | .step spurious => s.step t spurious

/-- What a client may do: use unfreed handles, and free a handle that no call is using. -/
def Legal (s : ArenaSys T) (t : T) : Act → Prop
  | .new a _ => s.pc t = .idle ∧ a ∉ s.arenas
  | .fuse a1 a2 => s.pc t = .idle ∧ (∀ a ∈ [a1, a2], s.handle a = true ∧
      ∀ u p, s.pc u = .free a p → a ∉ (s.pc u).args)
  | .free a => s.pc t = .idle ∧ s.handle a = true ∧ ∀ u, a ∉ (s.pc u).args
  | .step _ => True

/-- The states that threads reach from the start, in any interleaving. -/
inductive Reach : ArenaSys T → Prop
  | start : Reach start
  | exec {s s' : ArenaSys T} (t : T) (act : Act) :
    Reach s → s.Legal t act → s.exec t act = some s' → Reach s'

end ArenaSys

end Hpb
