import TreeFile.Bytes
import TreeFile.Config
import TreeFile.Geometry

/-!
The file header: the first hundred bytes of page 1. Reading refuses what is no header of this
format; writing puts every field back where it is read from.
-/

namespace TreeFile

structure FileHeader where
  pageSize : Nat
  writeVersion : UInt8
  readVersion : UInt8
  reserved : UInt8
  maxFraction : UInt8
  minFraction : UInt8
  leafFraction : UInt8
  changeCounter : UInt32
  databaseSize : UInt32
  firstTrunk : UInt32
  freeCount : UInt32
  schemaCookie : UInt32
  schemaFormat : UInt32
  defaultCacheSize : UInt32
  largestRoot : UInt32
  textEncoding : UInt32
  userVersion : UInt32
  incrementalVacuum : UInt32
  applicationId : UInt32
  versionValidFor : UInt32
  libraryVersion : UInt32
deriving DecidableEq, Repr, Inhabited

namespace Error

def headerTruncated : Error := notADb "file header truncated"
def badMagic : Error := notADb "bad magic string"
def headerPageSize (size : Nat) : Error := notADb s!"invalid page size {size}"

def headerReserved (reserved : UInt8) : Error :=
  notADb s!"reserved bytes {reserved} leave too little room"

end Error

namespace FileHeader

def magic : Bytes := "SQLite format 3\x00".toUTF8

def currentLibraryVersion : UInt32 := 3045000

def changeCounterOffset : Nat := 24
def databaseSizeOffset : Nat := 28
def firstTrunkOffset : Nat := 32
def freeCountOffset : Nat := 36
def largestRootOffset : Nat := 52
def incrementalVacuumOffset : Nat := 64
def versionValidForOffset : Nat := 92
def libraryVersionOffset : Nat := 96

def ofConfig (c : Config) : FileHeader where
  pageSize := c.pageSize
  writeVersion := 1
  readVersion := 1
  reserved := c.reserved
  maxFraction := c.maxFraction
  minFraction := c.minFraction
  leafFraction := c.leafFraction
  changeCounter := 1
  databaseSize := 1
  firstTrunk := 0
  freeCount := 0
  schemaCookie := 0
  schemaFormat := 4
  defaultCacheSize := 0
  largestRoot := if c.vacuum.isEnabled then 1 else 0
  textEncoding := 1
  userVersion := 0
  incrementalVacuum := if c.vacuum = .incremental then 1 else 0
  applicationId := 0
  versionValidFor := 1
  libraryVersion := currentLibraryVersion

def usableSize (h : FileHeader) : Nat := h.pageSize - h.reserved.toNat

def vacuum (h : FileHeader) : VacuumMode :=
  if h.largestRoot = 0 then .none
  else if h.incrementalVacuum = 0 then .full
  else .incremental

def encodedPageSize (pageSize : Nat) : Nat := if pageSize = maxPageSize then 1 else pageSize

def decodedPageSize (stored : Nat) : Nat := if stored = 1 then maxPageSize else stored

def word (d : Bytes) (offset : Nat) : UInt32 := UInt32.ofNat ((d.u32? offset).getD 0)

def parse (d : Bytes) : Except Error FileHeader := do
  if d.size < fileHeaderSize then throw .headerTruncated
  if d.extract 0 16 != magic then throw .badMagic
  let pageSize := decodedPageSize ((d.u16? 16).getD 0)
  if !isPageSize pageSize then throw (.headerPageSize pageSize)
  let reserved := d.get! 20
  if pageSize - reserved.toNat < minUsableSize then throw (.headerReserved reserved)
  return {
    pageSize := pageSize
    writeVersion := d.get! 18
    readVersion := d.get! 19
    reserved := reserved
    maxFraction := d.get! 21
    minFraction := d.get! 22
    leafFraction := d.get! 23
    changeCounter := word d changeCounterOffset
    databaseSize := word d databaseSizeOffset
    firstTrunk := word d firstTrunkOffset
    freeCount := word d freeCountOffset
    schemaCookie := word d 40
    schemaFormat := word d 44
    defaultCacheSize := word d 48
    largestRoot := word d largestRootOffset
    textEncoding := word d 56
    userVersion := word d 60
    incrementalVacuum := word d incrementalVacuumOffset
    applicationId := word d 68
    versionValidFor := word d versionValidForOffset
    libraryVersion := word d libraryVersionOffset }

def encode (h : FileHeader) : Bytes :=
  let words := [h.changeCounter, h.databaseSize, h.firstTrunk, h.freeCount, h.schemaCookie,
    h.schemaFormat, h.defaultCacheSize, h.largestRoot, h.textEncoding, h.userVersion,
    h.incrementalVacuum, h.applicationId, 0, 0, 0, 0, 0, h.versionValidFor, h.libraryVersion]
  let start := magic ++ Bytes.ofNat16 (encodedPageSize h.pageSize) ++
    Bytes.ofList [h.writeVersion, h.readVersion, h.reserved, h.maxFraction, h.minFraction,
      h.leafFraction]
  words.foldl (fun d word => d ++ Bytes.ofNat32 word.toNat) start

def write (h : FileHeader) : Action Bytes Unit :=
  Bytes.putOr ⟨.internal, none⟩ 0 h.encode

end FileHeader

end TreeFile
