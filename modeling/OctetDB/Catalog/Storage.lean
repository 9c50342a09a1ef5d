import OctetDB.Keyed.Storage

/-!
# The catalog of a database

A database keeps the topology of its buckets and datasets in a file of its own, which every
structural change rewrites as a whole: beside the current file, which it then replaces.
-/

namespace OctetDB

/-! ## Names and options -/

def validCatalogName (kind : String) (name : Bytes) : Except Error Unit :=
  if Utf8.trimSpace name = [] ∨ name ≠ Utf8.trimSpace name then
    .error ⟨.invalidInput, kind, kind ++
      " name is required and cannot have surrounding whitespace"⟩
  else if name.any fun b => b == 0x2F || b == 0x5C || b == 0x00 then
    .error ⟨.invalidInput, kind, kind ++ " name cannot contain path separators or NUL"⟩
  else if name.length > keyedMaxIdentityBytes then
    .error ⟨.capacity, kind, kind ++ " name exceeds 4 KiB"⟩
  else .ok ()

structure DatasetOptions where
  kind : Bytes := []
  typeIdentity : Bytes := []
  maxRecords : Int := 0
  maxValueBytes : Int := 0
  deriving DecidableEq, Repr

def normalizeDatasetOptions (options : DatasetOptions) (database : KeyedBounds) :
    Except Error DatasetOptions :=
  let options := if options.kind = [] then { options with kind := keyedJSON } else options
  if options.kind ≠ keyedJSON then
    .error ⟨.incompatible, "dataset", "unsupported dataset kind"⟩
  else if options.maxRecords < 0 ∨ options.maxValueBytes < 0 then
    .error ⟨.invalidInput, "dataset", "dataset bounds cannot be negative"⟩
  else
    let options := if options.maxRecords = 0 then
      { options with maxRecords := database.maxRecords } else options
    let options := if options.maxValueBytes = 0 then
      { options with maxValueBytes := database.maxValueBytes } else options
    if options.maxValueBytes > database.maxValueBytes then
      .error ⟨.invalidInput, "dataset", "dataset MaxValueBytes exceeds database MaxValueBytes"⟩
    else if options.typeIdentity.length > keyedMaxIdentityBytes then
      .error ⟨.capacity, "dataset", "type identity exceeds 4 KiB"⟩
    else .ok options

/-! ## The catalog file -/

section File

open Json

def encodeInt (n : Int) : Json :=
  .num (if n < 0 then 0x2D :: decimal n.natAbs else decimal n.natAbs)

def DatasetInfo.toJson (info : DatasetInfo) : Json :=
  .obj ([(ascii "id", .num (decimal info.id.toNat)), (ascii "bucket_name", .str info.bucketName),
      (ascii "name", .str info.name), (ascii "kind", .str info.kind),
      (ascii "origin", .str info.origin)] ++
    ((if info.typeIdentity = [] then [] else [(ascii "type_identity", .str info.typeIdentity)]) ++
      [(ascii "bounds", .obj [(ascii "max_records", encodeInt info.bounds.maxRecords),
        (ascii "max_value_bytes", encodeInt info.bounds.maxValueBytes)])]))

def CatalogState.toJson (state : CatalogState) : Json :=
  let bucket (datasets : CatalogBucket) : Json :=
    .obj [(ascii "datasets", .obj (datasets.toList.map fun e => (e.1, e.2.toJson)))]
  .obj [(ascii "database_id", .str state.databaseID),
    (ascii "next_dataset_id", .num (decimal state.nextDatasetID.toNat)),
    (ascii "buckets", .obj (state.buckets.toList.map fun e => (e.1, bucket e.2)))]

end File

def catalogMagic : Bytes := ascii "OCTCAT01"

def CatalogState.file (state : CatalogState) : Bytes := sealEnvelope catalogMagic state.toJson

inductive CatalogOp where
  | create
  | write
  | sync
  | close
  | rename
  | syncDirectory
  deriving DecidableEq, Repr

def catalogOps : List CatalogOp := [.create, .write, .sync, .close, .rename, .syncDirectory]

def CatalogOp.run (envelope : Bytes) (d : Directory) : CatalogOp → Directory
  | .create => { d with catalogTmp := some [] }
  | .write => { d with catalogTmp := some envelope }
  | .rename => { d with catalog := d.catalogTmp, catalogTmp := none }
  | .sync | .close | .syncDirectory => d

/-- The directory after the first `n` operations of a structural change. -/
def catalogAfter (state : CatalogState) (d : Directory) (n : Nat) : Directory :=
  (catalogOps.take n).foldl (CatalogOp.run state.file) d

/-- Writes a topology; the operation at the position of a fault, if any, fails. A failed
creation leaves a temporary file of an earlier attempt alone. -/
def persistCatalog (state : CatalogState) (d : Directory) (fault : Option (Nat × String)) :
    Directory × Option Error :=
  match fault with
  | none => (catalogAfter state d catalogOps.length, none)
  | some (0, message) => (d, some (storageError "catalog_write" message))
  | some (n + 1, message) =>
    ({ catalogAfter state d (n + 1) with catalogTmp := none },
      some (storageError "catalog_write" message))

end OctetDB
