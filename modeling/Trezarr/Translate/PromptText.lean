import Trezarr.Translate.Prompt

/-! The text of a translation request, as the model is sent it. -/
namespace Trezarr
open Text

def lineBreakRule : Str :=
  "Each line may contain <<BR>> markers that stand for line breaks inside a single subtitle " ++
  "cue. Keep every <<BR>> EXACTLY where it is — never delete, add, translate, reorder, or " ++
  "split a line on them. Output the SAME number of <<BR>> markers you received."

def glossaryRule : Str :=
  "For any name or term in [GLOSSARY], use the EXACT Vietnamese rendering on the right — " ++
  "identical in every line. For any romanized/pinyin proper name NOT in [GLOSSARY], render it " ++
  "with its Sino-Vietnamese (Hán-Việt) reading (e.g. pinyin 'Feng Tianji' → 'Phong Thiên Cực', " ++
  "'Han' → 'Hàn'), and render a kinship/honorific used as a form of address with its " ++
  "Vietnamese equivalent ('Brother' → 'huynh', 'Elder' → 'trưởng lão', 'Senior' → 'tiền bối'), " ++
  "NOT as a literal name. Never invent alternate transliterations, use Japanese romaji, leave " ++
  "pinyin, or leave source-language script."

def parenthesesRule : Str :=
  "If the source cue contains parentheses \"( )\" or square brackets \"[ ]\", TRANSLATE the " ++
  "text inside them and PRESERVE the surrounding \"(\" \")\" / \"[\" \"]\" envelope in the " ++
  "output — do NOT strip the delimiters. Do NOT add new glosses, translator notes, or " ++
  "explanatory parentheticals that are NOT already present in the source cue. EXCEPTION: a " ++
  "leading note in the form \"(speaker says: …; addresses as: …)\" is a PRIVATE pronoun " ++
  "instruction, NOT subtitle text — use it only to choose pronouns, then NEVER translate, " ++
  "echo, or keep it or its parentheses in your output."

def registerRule : Str :=
  "Match the series register/tone given in [REGISTER]. If the register is classical / " ++
  "historical / wuxia / xianxia / cultivation (cổ trang / tiên hiệp / kiếm hiệp), use " ++
  "classical Sino-Vietnamese (Hán-Việt) vocabulary and classical pronouns (e.g. self: ta / tại " ++
  "hạ / lão phu; address: ngươi / các hạ / chư vị / huynh / muội / tiền bối / trưởng lão) — do " ++
  "NOT flatten the dialogue into plain modern speech (tôi / bạn / anh / em) when the register " ++
  "is classical. Render any romanized/pinyin proper name with its Sino-Vietnamese (Hán-Việt) " ++
  "reading and never leave pinyin or source-language script (this holds even when no " ++
  "[GLOSSARY] is given)."

def pluralRule : Str :=
  "When a single line addresses MORE THAN ONE person, use a non-gendered plural address — " ++
  "classical: 'chư vị' / 'các vị' / 'các ngươi'; modern: 'các bạn' / 'mọi người'. NEVER use a " ++
  "gendered plural ('các cô' / 'các cậu' / 'các anh' / 'các chị') for a mixed-gender group, " ++
  "and if any addressee is male never use a female-gendered term."

def pronounExamples (register : Option Str) : Str :=
  if isClassicalRegister register then "các hạ (respectful, non-gendered) — never a proper name"
  else "bạn, or anh/chị by gender — never 'em' and never a proper name"

def safePronounRule : Str :=
  "For any line WITHOUT a (speaker says / addresses as) hint: render English " ++
  "'you/your/yourself' as a safe, non-presumptuous 2nd-person Vietnamese pronoun — NEVER " ++
  "substitute a character name. Use "

def unhintedRule (register : Option Str) : Str :=
  safePronounRule ++ pronounExamples register ++ "."

/-- A text the source leaves out when it is empty. -/
def given (text : Option Str) : Option Str := text.filter (· ≠ [])

def directiveRule (directive : Str) : Str := "[CORRECTION REQUIRED] " ++ directive

def rules (request : TranslateRequest) : List Str :=
  [lineBreakRule] ++
    (if request.glossary.getD [] = [] then [] else [glossaryRule]) ++
    [parenthesesRule] ++
    ((given request.register).map fun _ => registerRule).toList ++
    [pluralRule, unhintedRule request.register] ++
    ((given request.correctionDirective).map directiveRule).toList

def numberedRule (rule : Str) (n : ℕ) : Str := natStr n ++ ". " ++ rule

/-- The rules of every prompt come first and have their numbers with them. -/
def openingRules : List Str :=
  ["1. Output ONLY the numbered lines [1], [2], ... [N] in order.",
    "2. Keep <<T0>>, <<T1>>, ... tokens EXACTLY as-is (formatting placeholders — never " ++
      "translate or modify them).",
    "3. Do NOT translate or output the [context] lines."]

def ruleLines (request : TranslateRequest) : List Str :=
  openingRules ++ ((rules request).zipIdx 4).map fun (rule, n) => numberedRule rule n

def registerHeader : Str := "[REGISTER - match this tone in every line]"

def registerAdvice : Str :=
  ". Match it. A classical / historical / wuxia / xianxia / cultivation register requires " ++
  "classical Sino-Vietnamese vocabulary and pronouns (e.g. ta / ngươi / tại hạ / các hạ), " ++
  "never flat modern speech."

def registerLine (register : Str) : Str :=
  "- Series register/tone: " ++ register ++ registerAdvice

def registerNote (register : Str) : List Str := [registerHeader, registerLine register, []]

def glossaryLine (g : Str) : Str := "- " ++ g

def glossaryHeader : Str := "[GLOSSARY - canonical renderings, use EXACTLY]"

def glossaryBlock (glossary : List Str) : List Str :=
  if glossary = [] then [] else glossaryHeader :: glossary.map glossaryLine ++ [[]]

def contextLine (line : Str) : Str := "[context] " ++ strip line

def contextHeader : Str := "[CONTEXT - read only, do not output]"

def contextBlock (lines : List Str) : List Str := contextHeader :: lines.map contextLine

def markBreak (c : Char) : Str := if c = '\n' then "<<BR>>" else [c]

/-- A cue on one line: its line feeds are marked. -/
def markBreaks (text : Str) : Str := (strip text).flatMap markBreak

def pronounHint (hints : Option (Dict ℕ Terms)) (i : ℕ) : Option Terms := hints.bind (·.get? i)

def cueLine (hints : Option (Dict ℕ Terms)) (i : ℕ) (text : Str) : Str :=
  match pronounHint hints i with
  | some (self, addressee) =>
    "[" ++ natStr i ++ "] (speaker says: " ++ self ++ "; addresses as: " ++ addressee ++ ") " ++
      markBreaks text
  | none => "[" ++ natStr i ++ "] " ++ markBreaks text

def cueLines (hints : Option (Dict ℕ Terms)) (texts : List Str) : List Str :=
  (texts.zipIdx 1).map fun (text, i) => cueLine hints i text

/-- What comes before the lines to translate. -/
def preamble (sourceLang : Str) (request : TranslateRequest) : List Str :=
  ["Translate the following " ++ sourceLang ++ " subtitle lines to Vietnamese.", "RULES:"] ++
    ruleLines request ++ [[]] ++
    ((given request.register).map registerNote).getD [] ++
    glossaryBlock (request.glossary.getD []) ++
    (if request.contextBefore = [] then [] else contextBlock request.contextBefore ++ [[]])

def linesHeader : Str := "[LINES TO TRANSLATE]"

def afterword (request : TranslateRequest) : List Str :=
  if request.contextAfter = [] then [] else [] :: contextBlock request.contextAfter

def buildTranslatePrompt (sourceLang : Str) (request : TranslateRequest) : Str :=
  join "\n" (preamble sourceLang request ++
    linesHeader :: (cueLines request.pronounHints request.texts ++ afterword request))

end Trezarr
