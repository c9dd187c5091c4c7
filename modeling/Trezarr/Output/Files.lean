import Mathlib.Data.List.DropRight
import Trezarr.Lib.Links
import Trezarr.Lib.Text

/-! Files by path, with symbolic links resolved and the last writer of each file kept. -/
namespace Trezarr
open Text

abbrev Bytes := List UInt8

structure Path where
  str : Str
  deriving DecidableEq, Repr

namespace Path

theorem eq_of_str {p q : Path} (h : p.str = q.str) : p = q :=
  congrArg Path.mk h

def name (p : Path) : Str := p.str.rtakeWhile (· ≠ '/')

/-- The directory with its last slash; a child is written after it. -/
def parent (p : Path) : Str := p.str.rdropWhile (· ≠ '/')

/-- A dot that starts or ends the name is part of the stem. -/
def splitSuffix (p : Path) : Str × Str :=
  let front := p.name.rdropWhile (· ≠ '.')
  let ext := p.name.rtakeWhile (· ≠ '.')
  if front.length ≤ 1 ∨ ext = [] then (p.name, []) else (front.dropLast, '.' :: ext)

def stem (p : Path) : Str := p.splitSuffix.1

def suffix (p : Path) : Str := p.splitSuffix.2

theorem parent_append_name (p : Path) : p.parent ++ p.name = p.str :=
  List.rdropWhile_append_rtakeWhile

theorem stem_append_suffix (p : Path) : p.stem ++ p.suffix = p.name := by
  unfold stem suffix splitSuffix
  dsimp only
  split
  next => exact List.append_nil _
  next h =>
    have hdot : '.' ∈ p.name := by
      by_contra hnone
      apply h
      left
      rw [List.rdropWhile_eq_nil_iff.mpr]
      · exact Nat.zero_le 1
      · intro c hc
        exact decide_eq_true fun heq => hnone (heq ▸ hc)
    exact (split_last hdot).symm

theorem suffix_cases (p : Path) : p.suffix = [] ∨ ∃ ext, p.suffix = '.' :: ext ∧ '.' ∉ ext := by
  unfold suffix splitSuffix
  dsimp only
  split
  next => exact .inl rfl
  next => exact .inr ⟨_, rfl, not_mem_rtakeWhile _⟩

theorem splitSuffix_of_name {p : Path} {stem ext : Str} (hname : p.name = stem ++ '.' :: ext)
    (hstem : stem ≠ []) (hext : ext ≠ []) (hdot : '.' ∉ ext) :
    p.stem = stem ∧ p.suffix = '.' :: ext := by
  have hlen : ¬ ((stem ++ ['.']).length ≤ 1 ∨ ext = []) := by
    rintro (hshort | hnil)
    · have := List.length_pos_iff.mpr hstem
      rw [List.length_append, List.length_singleton] at hshort
      omega
    · exact hext hnil
  unfold Path.stem suffix splitSuffix
  rw [hname, rdropWhile_ne_append hdot, rtakeWhile_ne_append hdot]
  simp only [if_neg hlen, List.dropLast_concat, and_self]

theorem name_of_child {dir name : Str} (hdir : dir = [] ∨ dir.getLast? = some '/')
    (hname : '/' ∉ name) : (Path.mk (dir ++ name)).name = name := by
  unfold Path.name
  rcases hdir with rfl | hlast
  · rw [List.nil_append, List.rtakeWhile_eq_self_iff]
    intro c hc
    exact decide_eq_true fun heq => hname (heq ▸ hc)
  · obtain ⟨front, rfl⟩ := List.getLast?_eq_some_iff.mp hlast
    rw [List.append_assoc]
    exact rtakeWhile_ne_append hname

theorem parent_cases (p : Path) : p.parent = [] ∨ p.parent.getLast? = some '/' := by
  unfold parent
  by_cases hnil : p.str.rdropWhile (· ≠ '/') = []
  · exact .inl hnil
  · right
    rw [List.getLast?_eq_getLast_of_ne_nil hnil]
    simpa using List.rdropWhile_last_not (· ≠ '/') p.str hnil

end Path

inductive Writer
  | trezarr
  | other
  deriving DecidableEq, Repr

inductive OSError
  | noSuchFile (path : Path)
  | failed (text : Str)
  deriving DecidableEq, Repr

def OSError.text : OSError → Str
  | .noSuchFile path => "[Errno 2] No such file or directory: '" ++ path.str ++ "'"
  | .failed text => text

structure File where
  content : Bytes
  writer : Writer
  readError : Option Str := none
  deriving DecidableEq, Repr

/-- Directory entries with the links they lead through, and the files where the links end. -/
structure FileSystem extends Links Path where
  files : Path → Option File

namespace FileSystem

/-- One path that is a link to another. -/
def linking (link target : Path) (files : Path → Option File) : FileSystem :=
  { Links.single link target with files := files }

variable {fs : FileSystem} {p q : Path} {f : File}

def file? (fs : FileSystem) (p : Path) : Option File := fs.files (fs.resolve p)

def exists? (fs : FileSystem) (p : Path) : Bool := (fs.file? p).isSome

def readBytes (fs : FileSystem) (p : Path) : Except OSError Bytes :=
  match fs.file? p with
  | none => .error (.noSuchFile p)
  | some f => match f.readError with
    | some text => .error (.failed text)
    | none => .ok f.content

/-- A file put where a path ends, or taken from there. -/
def put (fs : FileSystem) (p : Path) (f : Option File) : FileSystem :=
  { fs with files := fun q => if q = fs.resolve p then f else fs.files q }

@[simp] theorem put_toLinks {f : Option File} : (fs.put p f).toLinks = fs.toLinks := rfl

@[simp] theorem file?_put {f : Option File} :
    (fs.put p f).file? q = if fs.resolve q = fs.resolve p then f else fs.file? q := rfl

/-- A file renamed over a directory entry: a link there goes, and what it led to stays. -/
def replace (fs : FileSystem) (p : Path) (f : File) : FileSystem where
  toLinks := fs.settle p
  files q := if q = fs.entry p then some f else fs.files q

theorem file?_replace :
    (fs.replace p f).file? q = if fs.entry p ∈ fs.trail q then some f else fs.file? q := by
  show (if (fs.settle p).resolve q = fs.entry p then some f
    else fs.files ((fs.settle p).resolve q)) = _
  by_cases h : fs.entry p ∈ fs.trail q
  · rw [if_pos h, Links.resolve_settle_of_mem h, if_pos rfl]
  · have hne : fs.resolve q ≠ fs.entry p := fun heq => h (heq ▸ fs.resolve_mem q)
    rw [if_neg h, Links.resolve_settle_of_not_mem h, if_neg hne]
    rfl

theorem file?_replace_self : (fs.replace p f).file? p = some f := by
  rw [file?_replace, if_pos (fs.entry_mem p)]

@[simp] theorem file?_resolve : fs.file? (fs.resolve p) = fs.file? p := by
  simp [file?]

theorem exists?_of_readBytes {bytes : Bytes} (h : fs.readBytes p = .ok bytes) :
    fs.exists? p = true := by
  unfold readBytes at h
  split at h
  · cases h
  · next hf => simp [exists?, hf]

theorem readBytes_resolve_iff {bytes : Bytes} :
    fs.readBytes (fs.resolve p) = .ok bytes ↔ fs.readBytes p = .ok bytes := by
  unfold readBytes
  rw [file?_resolve]
  cases fs.file? p with
  | none => exact iff_of_false nofun nofun
  | some f => exact Iff.rfl

theorem readBytes_resolve_ok {bytes : Bytes} (h : fs.readBytes p = .ok bytes) :
    fs.readBytes (fs.resolve p) = .ok bytes :=
  readBytes_resolve_iff.mpr h

@[simp] theorem exists?_resolve : fs.exists? (fs.resolve p) = fs.exists? p := by
  simp [exists?]

end FileSystem
end Trezarr
