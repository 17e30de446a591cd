import Hpb.Hash.IntTableRun
import Hpb.Hash.RemoveIter
import Hpb.Lib.Client
import Hpb.Reflection.Descriptor

/-!
# The pool of definitions (`hpb/reflection/def_pool.c`, `hpb/mini_table/extension_registry.c`)

A pool has four tables: the symbols, the files, the extensions by their mini tables, and the registry of
the mini tables of extensions. The builder of a file sees the pool only through a few calls
(`PoolCall`), some of which change it; `serve` is what they do.

The memory of the files that were accepted is in `fileDefs`, `tables`, `enumTables`, `extTables` and
`extDefs`. A pointer is an index; the file that is built is the next one. The memory of a file that failed
is freed, so that the next file gets its addresses, and a pointer from the length on is one to freed
memory. The registry and the table of extensions hold numbers, and so an extension and its mini table have
the same index.

A result `undefined` is an access outside of a table or a failed assertion of the source. Among the latter
are those of the tables: a key that is inserted is not there yet and is found afterwards, which is not so
for a name of `2 ^ 32` bytes, and a value is not the mark of an empty slot.
-/

namespace Hpb

namespace Reflection

/-- An argument of an error message. -/
inductive ErrArg where
  | str (s : StrKey)
  | int (n : Int)
  deriving DecidableEq, Repr

/-- How a step ends without a result: with a message, given by its format, or not at all. -/
inductive Failure where
  | error (format : String) (args : List ErrArg)
  | undefined
  deriving DecidableEq, Repr

/-- `_hpb_DefBuilder_OomErr`. -/
def Failure.outOfMemory : Failure := .error "out of memory" []

/-- `hpb_DefPool`. -/
structure DefPool where
  arena : Alloc
  /-- full_name -> packed def ptr -/
  syms : StrTable DefPtr
  /-- file_name -> file -/
  files : StrTable Nat
  /-- extension mini table -> field -/
  exts : IntTable
  /-- extended table and number -> extension mini table -/
  extreg : StrTable Nat
  platform : Platform
  fileDefs : List FileDef
  tables : List MiniTable
  enumTables : List MiniTableEnum
  extTables : List MiniTableExtension
  extDefs : List FieldDef

/-- The bytes of a number in memory, least significant first. -/
def leBytes : Nat → Nat → StrKey
  | 0, _ => []
  | n + 1, v => UInt8.ofNat (v % 256) :: leBytes n (v / 256)

/-- `extreg_key`. -/
def extregKey (table num : Nat) : StrKey := leBytes 8 table ++ leBytes 4 num

/-- The calls that the builder makes to the pool. -/
inductive PoolCall where
  | lookupSym (name : StrKey)
  /-- Enter a definition of the file that is built. -/
  | insertSym (name : StrKey) (type : DefType)
  | findFile (name : StrKey)
  /-- Follow a pointer into an earlier file. -/
  | readFile (file : Nat)
  | readTable (table : Nat)
  | insertExt (ext f : Nat)

/-- What the pool replies. -/
def PoolReply : PoolCall → Type
  | .lookupSym _ => Option DefPtr
  | .insertSym _ _ => Unit
  | .findFile _ => Option Nat
  | .readFile _ => FileDef
  | .readTable _ => MiniTable
  | .insertExt _ _ => Bool

namespace DefPool

/-- `hpb_DefPool_New`; there is no pool without memory. -/
def new (platform : Platform) (a : Alloc) : Option (Option DefPool) := do
  match ← StrTable.init 32 a with
  | (none, _) => return none
  | (some syms, a) =>
    match ← StrTable.init 4 a with
    | (none, _) => return none
    | (some files, a) =>
      match IntTable.init a with
      | (none, _) => return none
      | (some exts, a) =>
        match ← StrTable.init 8 a with
        | (none, _) => return none
        | (some extreg, a) =>
          return some ⟨a, syms, files, exts, extreg, platform, [], [], [], [], []⟩

/-! ### The registry -/

/-- `hpb_ExtensionRegistry_Add`. -/
def registryAdd (r : StrTable Nat) (a : Alloc) (ext : Nat) (mt : MiniTableExtension) :
    Option (Bool × StrTable Nat × Alloc) := do
  let key := extregKey mt.extendee mt.field.number
  match ← r.lookup2 key with
  | some _ => return (false, r, a)
  | none => r.insert key ext a

/-- Back out the entries previously added. -/
def registryBackOut (r : StrTable Nat) : List (Nat × MiniTableExtension) → Option (StrTable Nat)
  | [] => some r
  | (_, mt) :: exts => do
    let (_, r) ← r.remove2 (extregKey mt.extendee mt.field.number)
    registryBackOut r exts

/-- The loop of `hpb_ExtensionRegistry_AddArray`; `start` was added already. -/
def registryAddFrom (r : StrTable Nat) (a : Alloc) (start : List (Nat × MiniTableExtension)) :
    List (Nat × MiniTableExtension) → Option (Bool × StrTable Nat × Alloc)
  | [] => some (true, r, a)
  | (ext, mt) :: exts => do
    let (ok, r, a) ← registryAdd r a ext mt
    if ok then registryAddFrom r a (start ++ [(ext, mt)]) exts
    else
      let r ← registryBackOut r start
      return (false, r, a)

/-- `hpb_ExtensionRegistry_AddArray`. -/
def registryAddArray (r : StrTable Nat) (a : Alloc) (exts : List (Nat × MiniTableExtension)) :
    Option (Bool × StrTable Nat × Alloc) :=
  registryAddFrom r a [] exts

/-- `hpb_ExtensionRegistry_Lookup`. -/
def registryLookup (r : StrTable Nat) (table num : Nat) : Option (Option Nat) :=
  r.lookup2 (extregKey table num)

/-! ### The calls -/

/-- `_hpb_DefPool_InsertSym`. -/
def insertSym (s : DefPool) (name : StrKey) (type : DefType) : Except Failure Unit × DefPool :=
  match s.syms.lookup2 name with
  | none => (.error .undefined, s)
  | some (some _) => (.error (.error "duplicate symbol '%s'" [.str name]), s)
  | some none =>
    if 2 ^ 32 ≤ name.length then (.error .undefined, s)
    else
      match s.syms.insert name ⟨type, s.fileDefs.length, name⟩ s.arena with
      | none => (.error .undefined, s)
      | some (true, syms, arena) => (.ok (), { s with syms, arena })
      | some (false, syms, arena) => (.error .outOfMemory, { s with syms, arena })

/-- `_hpb_DefPool_InsertExt`. -/
def insertExt (s : DefPool) (ext f : Nat) : Except Failure Bool × DefPool :=
  match s.exts.lookup ext with
  | some none =>
    if 2 ^ 64 ≤ ext ∨ 2 ^ 64 - 1 ≤ f then (.error .undefined, s)
    else
      match s.exts.insert ext (UInt64.ofNat f) s.arena with
      | (none, arena) => (.error .undefined, { s with arena })
      | (some (ok, exts), arena) => (.ok ok, { s with exts, arena })
  | _ => (.error .undefined, s)

/-- A reply that is there, or none. -/
def orUndefined {α : Type} : Option α → Except Failure α
  | some a => .ok a
  | none => .error .undefined

/-- What the pool does with a call. -/
def serve : Serve PoolCall PoolReply Failure DefPool
  | .lookupSym name, s => (orUndefined (s.syms.lookup2 name), s)
  | .insertSym name type, s => s.insertSym name type
  | .findFile name, s => (orUndefined (s.files.lookup2 name), s)
  | .readFile file, s => (orUndefined s.fileDefs[file]?, s)
  | .readTable table, s => (orUndefined s.tables[table]?, s)
  | .insertExt ext f, s => s.insertExt ext f

/-! ### Lookups -/

/-- `hpb_strtable_lookup2(&s->syms, ...)`; what `hpb_DefPool_FindMessageByName` and its siblings look at. -/
def lookupSym (s : DefPool) (name : StrKey) : Option (Option DefPtr) := s.syms.lookup2 name

/-- `_hpb_DefPool_Unpack`. -/
def unpack (s : DefPool) (name : StrKey) (type : DefType) : Option (Option DefPtr) := do
  let p ← s.lookupSym name
  return p.filter fun p => p.type = type

/-- `hpb_DefPool_FindFileByNameWithSize`. -/
def findFileByName (s : DefPool) (name : StrKey) : Option (Option Nat) := s.files.lookup2 name

/-- `hpb_DefPool_FindExtensionByNameWithSize`: an extension, or the message of a message set, whose first
extension it is. -/
def findExtensionByName (s : DefPool) (name : StrKey) : Option (Option StrKey) := do
  match ← s.lookupSym name with
  | none => return none
  | some p =>
    match p.type with
    | .ext => return some p.name
    | .msg =>
      let file ← s.fileDefs[p.file]?
      let m ← file.findMessage p.name
      if m.inMessageSet then return m.nestedExts.head?.map (·.fullName) else return none
    | _ => return none

/-- `hpb_DefPool_FindExtensionByMiniTable`; the source asserts that there is one. -/
def findExtensionByMiniTable (s : DefPool) (ext : Nat) : Option UInt64 := do
  let v ← s.exts.lookup ext
  v

/-- `hpb_DefPool_FindExtensionByNumber`, for the message with the mini table `t`. -/
def findExtensionByNumber (s : DefPool) (t num : Nat) : Option (Option UInt64) := do
  match ← registryLookup s.extreg t num with
  | none => return none
  | some ext =>
    let f ← s.findExtensionByMiniTable ext
    return some f

/-- `hpb_DefPool_GetAllExtensions`: each field in the table is read. -/
def getAllExtensions (s : DefPool) (m : DefPtr) : Option (List UInt64) :=
  s.exts.forAll (fun exts p => do
    let f ← s.extDefs[p.2.toNat]?
    return if f.msgdef = some m then exts ++ [p.2] else exts) []

/-! ### A file that failed -/

/-- `remove_filedef`. -/
def removeFiledef (s : DefPool) (file : Nat) : Option DefPool := do
  let syms ← s.syms.removeIf fun p => p.file = file
  return { s with syms }

end DefPool

end Reflection

end Hpb
