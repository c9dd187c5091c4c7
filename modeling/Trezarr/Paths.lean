import Trezarr.Lib.Sorting
import Trezarr.Output.Files

/-! Paths as the media servers report them, mapped to this host and guarded by its media roots. -/
namespace Trezarr
open Text Sorting

structure PathMapping where
  remote : Str
  localPath : Str
  deriving DecidableEq, Repr

def stripSlash (s : Str) : Str := s.rdropWhile (· = '/')

/-- The mapping with the longest remote side that covers whole components of the path. -/
def applyPathMapping (apiPath : Str) (mappings : List PathMapping) : Path :=
  let normalized := stripSlash apiPath
  let sorted := sortOn (fun m => OrderDual.toDual (stripSlash m.remote).length) mappings
  match sorted.find? fun m =>
    normalized = stripSlash m.remote ∨ stripSlash m.remote ++ ['/'] <+: normalized with
  | none => ⟨apiPath⟩
  | some m => ⟨stripSlash m.localPath ++ normalized.drop (stripSlash m.remote).length⟩

def buildMediaRoots (mappings : List PathMapping) : List Path :=
  (mappings.map fun m => stripSlash m.localPath).reverse.dedup.reverse.map Path.mk

/-- Component by component; every absolute path is relative to `/`. -/
def Path.isRelativeTo (p root : Path) : Bool :=
  p = root || stripSlash root.str ++ ['/'] <+: p.str

/-- A path outside of all the roots, with these. -/
structure TraversalError where
  resolved : Path
  mediaRoots : List Path
  deriving DecidableEq, Repr

def assertWithinMediaRoots (fs : FileSystem) (path : Path) (mediaRoots : List Path) :
    Except TraversalError Unit :=
  if mediaRoots.any fun root => (fs.resolve path).isRelativeTo (fs.resolve root) then .ok ()
  else .error ⟨fs.resolve path, mediaRoots⟩

end Trezarr
