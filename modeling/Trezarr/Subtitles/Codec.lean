import Trezarr.Lib.Utf16
import Trezarr.Subtitles.Encoding

/-! Codecs by name: what a strict decoder reads, an encoder writes. -/
namespace Trezarr
open Text

structure Codec where
  decode? : Bytes → Option Str
  encode? : Str → Option Bytes

/-- What is encoded is decoded to the same text. -/
def Codec.ReadsBack (codec : Codec) : Prop :=
  ∀ text data, codec.encode? text = some data → codec.decode? data = some text

def byteOrderMark : Bytes := [0xEF, 0xBB, 0xBF]

def utf8 : Codec := ⟨decodeUtf8?, fun text => some (encodeUtf8 text)⟩

def utf8Sig : Codec where
  decode? data := decodeUtf8? (if data.take 3 = byteOrderMark then data.drop 3 else data)
  encode? text := some (byteOrderMark ++ encodeUtf8 text)

/-- With the byte order in the name, a mark is a character of the text. -/
def utf16 (order : Utf16.ByteOrder) : Codec where
  decode? := Utf16.decode? order
  encode? text := some (Utf16.encode order text)

/-- The codecs of the detector's first two tiers, and others by name. -/
def codecOf (others : Str → Codec) (name : Str) : Codec :=
  if name = ("utf-8" : Str) then utf8
  else if name = ("utf-8-sig" : Str) then utf8Sig
  else if name = ("utf-16-le" : Str) then utf16 .little
  else if name = ("utf-16-be" : Str) then utf16 .big
  else others name

/-- Nothing is replaced in what can be decoded. -/
def Codecs.Agree (codecs : Codecs) (others : Str → Codec) : Prop :=
  ∀ name data text, (codecOf others name).decode? data = some text →
    name ≠ ("utf-8" : Str) → name ≠ ("utf-8-sig" : Str) → codecs.decodeReplacing name data = text

theorem decodeUtf8?_encodeUtf8 (text : Str) : decodeUtf8? (encodeUtf8 text) = some text := by
  show (text.utf8Encode.utf8Decode?).map Array.toList = some text
  simp

theorem encodeUtf8_of_decodeUtf8? {data : Bytes} {text : Str} (h : decodeUtf8? data = some text) :
    encodeUtf8 text = data := by
  obtain ⟨chars, hchars, rfl⟩ := Option.map_eq_some_iff.mp h
  have hsome : (data.toByteArray.utf8Decode?).isSome := by simp [hchars]
  have hget : (data.toByteArray.utf8Decode?).get hsome = chars := by simp [hchars]
  have hencode : (chars.toList.flatMap String.utf8EncodeChar).toByteArray = data.toByteArray := by
    rw [← hget]
    exact ByteArray.utf8Encode_get_utf8Decode?
  have hlists := congrArg (fun b : ByteArray => b.data.toList) hencode
  simpa [encodeUtf8] using hlists

theorem readsBack_codecOf {others : Str → Codec} (h : ∀ name, (others name).ReadsBack)
    (name : Str) : (codecOf others name).ReadsBack := by
  have hutf16 : ∀ order, (utf16 order).ReadsBack := by
    intro order text data henc
    cases henc
    exact Utf16.decode?_encode order text
  unfold codecOf
  split
  · intro text data henc
    cases henc
    exact decodeUtf8?_encodeUtf8 text
  · split
    · intro text data henc
      cases henc
      exact decodeUtf8?_encodeUtf8 text
    · split
      · exact hutf16 .little
      · split
        · exact hutf16 .big
        · exact h name

theorem decode_of_decode? {codecs : Codecs} {others : Str → Codec} {name text : Str} {data : Bytes}
    (hagree : codecs.Agree others) (h : (codecOf others name).decode? data = some text) :
    decode codecs name data = text := by
  unfold decode
  by_cases hutf8 : name = ("utf-8" : Str)
  · subst hutf8
    have hdecode : decodeUtf8? data = some text := h
    have hname : ¬ ("utf-8".toList = "utf-8-sig".toList ∧ data.take 3 = [0xEF, 0xBB, 0xBF]) :=
      fun hboth => absurd hboth.1 (by decide)
    simp only [if_neg hname, true_or, if_true, hdecode, Option.getD_some]
  · by_cases hsig : name = ("utf-8-sig" : Str)
    · subst hsig
      have hdecode : decodeUtf8? (if data.take 3 = [0xEF, 0xBB, 0xBF] then data.drop 3 else data) =
          some text := h
      simp only [true_and, or_true, if_true, hdecode, Option.getD_some]
    · simp only [if_neg (not_or.mpr ⟨hutf8, hsig⟩)]
      exact hagree name data text h hutf8 hsig

/-- Bytes with a mark, or of plain UTF-8: what the detector decides without guessing. -/
def Marked (data : Bytes) : Prop :=
  data.take 3 = byteOrderMark ∨ data.take 2 = [0xFF, 0xFE] ∨ data.take 2 = [0xFE, 0xFF] ∨
    (decodeUtf8? data).isSome

theorem detectEncoding_marked (codecs : Codecs) {data : Bytes} (h : Marked data) :
    data.take 3 = byteOrderMark ∧ detectEncoding codecs data = "utf-8-sig" ∨
      detectEncoding codecs data = "utf-16-le" ∨ detectEncoding codecs data = "utf-16-be" ∨
        detectEncoding codecs data = "utf-8" := by
  unfold detectEncoding
  by_cases hsig : data.take 3 = byteOrderMark
  · exact .inl ⟨hsig, if_pos hsig⟩
  · right
    rw [if_neg (show ¬ data.take 3 = [0xEF, 0xBB, 0xBF] from hsig)]
    by_cases hle : data.take 2 = [0xFF, 0xFE]
    · exact .inl (if_pos hle)
    · right
      rw [if_neg hle]
      by_cases hbe : data.take 2 = [0xFE, 0xFF]
      · exact .inl (if_pos hbe)
      · right
        have hutf8 : (decodeUtf8? data).isSome := by
          rcases h with h | h | h | h
          · exact absurd h hsig
          · exact absurd h hle
          · exact absurd h hbe
          · exact h
        rw [if_neg hbe, if_pos hutf8]

/-- Such bytes are encoded back from what they decode to. -/
theorem encode?_of_marked {codecs : Codecs} {others : Str → Codec} {text : Str} {data : Bytes}
    (hmarked : Marked data)
    (h : (codecOf others (detectEncoding codecs data)).decode? data = some text) :
    (codecOf others (detectEncoding codecs data)).encode? text = some data := by
  rcases detectEncoding_marked codecs hmarked with ⟨hsig, hname⟩ | hname | hname | hname
  · rw [hname] at h ⊢
    have hdecode : decodeUtf8? (if data.take 3 = byteOrderMark then data.drop 3 else data) =
        some text := h
    rw [if_pos hsig] at hdecode
    show some (byteOrderMark ++ encodeUtf8 text) = some data
    rw [encodeUtf8_of_decodeUtf8? hdecode, ← hsig, List.take_append_drop]
  · rw [hname] at h ⊢
    exact congrArg some (Utf16.encode_of_decode? h)
  · rw [hname] at h ⊢
    exact congrArg some (Utf16.encode_of_decode? h)
  · rw [hname] at h ⊢
    exact congrArg some (encodeUtf8_of_decodeUtf8? h)

/-- An installation with no other codecs and no guesses. -/
def noOthers : Str → Codec := fun _ => ⟨fun _ => none, fun _ => none⟩

def plainCodecs : Codecs :=
  ⟨fun _ => none, fun name data => ((codecOf noOthers name).decode? data).getD []⟩

theorem readsBack_noOthers (name : Str) : (noOthers name).ReadsBack := fun _ _ => nofun

theorem agree_plainCodecs : plainCodecs.Agree noOthers := by
  intro name data text h _ _
  show ((codecOf noOthers name).decode? data).getD [] = text
  rw [h, Option.getD_some]

end Trezarr
