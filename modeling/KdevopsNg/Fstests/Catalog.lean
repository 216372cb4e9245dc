/-
# `Fstests.Catalog` — the shipped config

`XFS_PROFILES` of `f/fstests/common.py`: a section for each feature, block size
and sector size that `mkfs.xfs` and the guest accept together, and
`xfs_catalog_text`, the config they make when the caller pastes none.
-/
import Mathlib.Data.List.Basic
import KdevopsNg.Py.Text

namespace KdevopsNg.Fstests

open Py

/-- The external device a feature needs. -/
inductive ExternalDevice where
  | logdev
  | rtdev
  deriving DecidableEq, Repr

/-- A row of `XFS_FEATURES`. -/
structure Feature where
  name : String
  mkfs : String
  mount : String := ""
  v4 : Bool := false
  needs : Option ExternalDevice := none
  minBlock : Option ℕ := none
  rtExtsizeMult : Option ℕ := none
  deriving Repr

/-- `XFS_BLOCK_SIZES`. -/
def xfsBlockSizes : List ℕ := [512, 1024, 2048, 4096, 8192, 16384, 32768, 65536]

/-- `XFS_SECTOR_SIZES`. -/
def xfsSectorSizes : List ℕ := [512, 1024, 2048, 4096, 8192, 16384, 32768]

/-- `XFS_MIN_CRC_BLOCKSIZE`. -/
def xfsMinCrcBlocksize : ℕ := 1024

/-- `GUEST_PAGE_SIZE`. -/
def guestPageSize : ℕ := 4096

/-- `XFS_MIN_RTEXTSIZE`. -/
def xfsMinRtextsize : ℕ := 4096

/-- `XFS_FEATURES`. -/
def xfsFeatures : List Feature :=
  [{ name := "", mkfs := "" },
    { name := "full", mkfs := "-m metadir=1", mount := "-o usrquota,grpquota,prjquota" },
    { name := "nofeat"
      mkfs := "-m reflink=0,rmapbt=0,finobt=0,inobtcount=0,bigtime=0 -i sparse=0,nrext64=0" },
    { name := "quota", mkfs := "", mount := "-o usrquota,grpquota" },
    { name := "prjquota", mkfs := "", mount := "-o prjquota" },
    { name := "noreflink", mkfs := "-m reflink=0" },
    { name := "normapbt", mkfs := "-m rmapbt=0" },
    { name := "metadir", mkfs := "-m metadir=1" },
    { name := "nofinobt", mkfs := "-m finobt=0,inobtcount=0" },
    { name := "noinobtcount", mkfs := "-m inobtcount=0" },
    { name := "nosparse", mkfs := "-i sparse=0" },
    { name := "nobigtime", mkfs := "-m bigtime=0" },
    { name := "nonrext64", mkfs := "-i nrext64=0" },
    { name := "asciici", mkfs := "-n version=ci" },
    { name := "logdev", mkfs := "", needs := some .logdev },
    { name := "realtime", mkfs := "-m reflink=0 -d rtinherit=1", needs := some .rtdev },
    { name := "realtime_rtx2", mkfs := "-d rtinherit=1", needs := some .rtdev
      rtExtsizeMult := some 2 },
    { name := "realtime_rtx4", mkfs := "-d rtinherit=1", needs := some .rtdev
      rtExtsizeMult := some 4 },
    { name := "realtime_reflink", mkfs := "-m metadir=1 -d rtinherit=1", needs := some .rtdev
      minBlock := some 4096 },
    { name := "nocrc", mkfs := "-m crc=0", v4 := true }]

/-- A section of the catalog. -/
structure Profile where
  name : String
  mkfs : String
  mount : String
  needs : Option ExternalDevice
  deriving Repr

/-- `_size_tag`. -/
def sizeTag (n : ℕ) : String := if n = 512 then "512" else toString (n / 1024) ++ "k"

/-- The block sizes a feature is listed at. -/
def Feature.hasBlock (f : Feature) (block : ℕ) : Bool :=
  (f.v4 || decide (xfsMinCrcBlocksize ≤ block)) &&
    (!f.v4 || decide (block ≤ guestPageSize)) &&
    (f.minBlock.all fun m => decide (m ≤ block)) &&
    (f.rtExtsizeMult.all fun m => decide (xfsMinRtextsize ≤ m * block))

/-- The section of a feature at a block and a sector size. -/
def Feature.profile (f : Feature) (block sector : ℕ) : Profile where
  name := "xfs_" ++ (if f.name = "" then "" else f.name ++ "_") ++ "bs" ++ sizeTag block ++
    "_ss" ++ sizeTag sector
  mkfs := Text.join " " (([f.mkfs, "-b size=" ++ toString block, "-s size=" ++ toString sector] ++
    match f.rtExtsizeMult with
    | some m => ["-r extsize=" ++ toString (m * block)]
    | none => []).filter (· ≠ ""))
  mount := f.mount
  needs := f.needs

/-- `XFS_PROFILES`. -/
def xfsProfiles : List Profile :=
  xfsFeatures.flatMap fun f =>
    (xfsBlockSizes.filter f.hasBlock).flatMap fun block =>
      (xfsSectorSizes.filter (· ≤ block)).map fun sector => f.profile block sector

/-- A section of the config. -/
def Profile.text (p : Profile) : String :=
  Text.join "\n" (["[" ++ p.name ++ "]", "FSTYP=xfs"] ++
    (if p.mkfs = "" then [] else ["MKFS_OPTIONS=\"" ++ p.mkfs ++ "\""]) ++
    (if p.mount = "" then [] else ["MOUNT_OPTIONS=\"" ++ p.mount ++ "\""]) ++
    match p.needs with
    | none => []
    | some .logdev => ["USE_EXTERNAL=yes", "TEST_LOGDEV=", "SCRATCH_LOGDEV="]
    | some .rtdev => ["USE_EXTERNAL=yes", "TEST_RTDEV=", "SCRATCH_RTDEV="])

/-- `xfs_catalog_text()`. -/
def xfsCatalogText : String := Text.join "\n\n" (xfsProfiles.map Profile.text) ++ "\n"

end KdevopsNg.Fstests
