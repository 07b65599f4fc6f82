import Gopherize.Core.Fault
import Gopherize.React.Host

/-! gen_jsx_cssGen.go: the `style` attribute. A text is read as declarations
separated by semicolons, each with exactly one colon; printing declarations and
reading them back gives the style they describe. -/
namespace Gopherize.Jsx
open GoCore React

/-- The key as it is written in a `style` attribute. -/
def cssName : CssKey → String
  | .float => "float"
  | .fontSize => "font-size"
  | .fontStyle => "font-style"
  | .height => "height"
  | .left => "left"
  | .marginTop => "margin-top"
  | .maxHeight => "max-height"
  | .minHeight => "min-height"
  | .overflow => "overflow"
  | .overflowY => "overflow-y"
  | .position => "position"
  | .resize => "resize"
  | .top => "top"
  | .width => "width"
  | .zIndex => "z-index"

/-- The switch on the key. -/
def cssKey (k : String) : Option CssKey := CssKey.all.find? (fun key => cssName key = k)

/-- One round of the loop: what part `p` of the text `s` declares. -/
def declaration (s p : String) : Except Fault (CssKey × String) :=
  match Text.split ':' p with
  | [k, v] =>
    match cssKey (Text.trimSpace k) with
    | some key => .ok (key, Text.trim ['\"'] (Text.trimSpace v))
    | none => .error (.errorf "unknown CSS key %q in %q" [Text.trimSpace k, s])
  | _ => .error (.errorf "invalid key-val %q in %q" [p, s])

def assign (css : CSS) (d : CssKey × String) : CSS := Function.update css d.1 d.2

def parseCSS (s : String) : Except Fault CSS :=
  (Text.split ';' s).foldlM (fun css p => do pure (assign css (← declaration s p))) CSS.zero

/-- The style that a list of declarations describes: the last one for a key counts. -/
def described (ds : List (CssKey × String)) (key : CssKey) : String :=
  ((ds.reverse.find? (fun d => d.1 = key)).map Prod.snd).getD ""

theorem foldl_assign (ds : List (CssKey × String)) : ds.foldl assign CSS.zero = described ds := by
  induction ds using List.reverseRecOn with
  | nil => rfl
  | append_singleton ds d ih =>
    funext key
    rw [List.foldl_concat, ih, assign, Function.update_apply]
    by_cases same : key = d.1
    · simp [described, same]
    · simp [described, same, Ne.symm same]

/-- All parts are read in order, and the first one that cannot be read stops. -/
theorem parseCSS_eq (s : String) :
    parseCSS s = (do pure (described (← (Text.split ';' s).mapM (declaration s)))) := by
  simp only [parseCSS, Fault.foldlM_mapM, foldl_assign]

/-- A part that declares something: exactly one colon, after a known key. -/
def Declares (p : String) (d : CssKey × String) : Prop :=
  ∃ k v, Text.split ':' p = [k, v] ∧ cssKey (Text.trimSpace k) = some d.1 ∧
    Text.trim ['\"'] (Text.trimSpace v) = d.2

theorem declaration_eq_ok {s p : String} {d : CssKey × String} :
    declaration s p = .ok d ↔ Declares p d := by
  rw [declaration, Declares]
  constructor
  · intro read
    split at read
    · next k v parts =>
      cases key : cssKey (Text.trimSpace k) with
      | none => simp [key] at read
      | some found =>
        simp only [key, Except.ok.injEq] at read
        exact ⟨k, v, parts, by rw [key, ← read], by rw [← read]⟩
    · cases read
  · rintro ⟨k, v, parts, key, value⟩
    simp only [parts, key, value]

/-- The attribute is accepted exactly when each of its parts declares something, and
the result is what those declarations describe. -/
theorem parseCSS_eq_ok {s : String} {css : CSS} :
    parseCSS s = .ok css ↔
      ∃ ds, List.Forall₂ Declares (Text.split ';' s) ds ∧ css = described ds := by
  simp only [parseCSS_eq, Fault.bind_eq_ok, Fault.mapM_eq_ok, declaration_eq_ok,
    Fault.pure_eq_ok, Except.ok.injEq, eq_comm (a := css)]

/-- A declaration as it may be written: with quotes around the value, and with blanks
around the key and the quoted value. -/
structure Written where
  key : CssKey
  value : String
  opening : Nat := 0
  closing : Nat := 0
  beforeKey : String := ""
  afterKey : String := ""
  beforeValue : String := ""
  afterValue : String := ""

def quotes (n : Nat) : String := String.ofList (List.replicate n '\"')

namespace Written

/-- The value between its quotes. -/
def quoted (w : Written) : String := quotes w.opening ++ w.value ++ quotes w.closing

def text (w : Written) : String :=
  w.beforeKey ++ cssName w.key ++ w.afterKey ++ ":" ++
    (w.beforeValue ++ w.quoted ++ w.afterValue)

/-- Only blanks and quotes are added. The value has none of the characters that the reader takes
apart and no quotes of its own at its ends, and it is between quotes if it has blanks there. -/
structure Clean (w : Written) : Prop where
  beforeKey : Text.Blank w.beforeKey
  afterKey : Text.Blank w.afterKey
  beforeValue : Text.Blank w.beforeValue
  afterValue : Text.Blank w.afterValue
  noColon : ':' ∉ w.value.toList
  noSemicolon : ';' ∉ w.value.toList
  tight : Text.trimSpace w.quoted = w.quoted
  bare : Text.trim ['\"'] w.value = w.value

end Written

theorem cssName_plain (key : CssKey) :
    ':' ∉ (cssName key).toList ∧ ';' ∉ (cssName key).toList ∧
      Text.trimSpace (cssName key) = cssName key ∧ cssKey (cssName key) = some key := by
  cases key <;> decide +kernel

theorem blank_plain {s : String} (blank : Text.Blank s) : ':' ∉ s.toList ∧ ';' ∉ s.toList :=
  ⟨fun member => absurd (blank _ member) (by decide), fun member => absurd (blank _ member) (by decide)⟩

theorem quotes_plain (n : Nat) : ':' ∉ (quotes n).toList ∧ ';' ∉ (quotes n).toList := by
  simp [quotes]

theorem trim_quoted (w : Written) : Text.trim ['\"'] w.quoted = Text.trim ['\"'] w.value := by
  have only (n : Nat) : ∀ c ∈ (quotes n).toList, ['\"'].contains c = true := by
    simp [quotes]
  rw [Text.trim, Written.quoted, String.toList_append, String.toList_append,
    Text.trimBoth_pad (only w.opening) (only w.closing), Text.trim]

theorem Written.Clean.declares {w : Written} (clean : w.Clean) :
    Declares w.text (w.key, w.value) := by
  obtain ⟨colon, _, tight, key⟩ := cssName_plain w.key
  have value : ':' ∉ w.quoted.toList := by
    simp [Written.quoted, clean.noColon, quotes_plain]
  refine ⟨w.beforeKey ++ cssName w.key ++ w.afterKey,
    w.beforeValue ++ w.quoted ++ w.afterValue, ?_, ?_, ?_⟩
  · rw [Written.text, show (":" : String) = String.singleton ':' from rfl, Text.split_append,
      Text.split_of_not_mem, Text.split_of_not_mem]
    · rfl
    · simp [value, blank_plain clean.beforeValue, blank_plain clean.afterValue]
    · simp [colon, blank_plain clean.beforeKey, blank_plain clean.afterKey]
  · rw [Text.trimSpace_pad clean.beforeKey clean.afterKey, tight, key]
  · rw [Text.trimSpace_pad clean.beforeValue clean.afterValue, clean.tight, trim_quoted, clean.bare]

theorem Written.Clean.noSeparator {w : Written} (clean : w.Clean) : ';' ∉ w.text.toList := by
  simp [Written.text, Written.quoted, clean.noSemicolon, quotes_plain, blank_plain clean.beforeKey,
    blank_plain clean.afterKey, blank_plain clean.beforeValue, blank_plain clean.afterValue,
    (cssName_plain w.key).2.1]

/-- Two declarations with a blank before each value, which in the second one is between quotes
and has blanks of its own. -/
def floating : List Written :=
  [{ key := .float, value := "left", beforeValue := " " },
    { key := .fontSize, value := " small ", opening := 1, closing := 1, beforeKey := " ", beforeValue := " " }]

theorem floating_clean : ∀ w ∈ floating, w.Clean := by
  intro w member
  rcases List.mem_pair.mp member with rfl | rfl <;> constructor <;> decide +kernel

theorem split_trailing (s : String) : Text.split ';' (s ++ ";") = Text.split ';' s ++ [""] := by
  have parts := Text.split_append ';' s ""
  rwa [String.append_empty, Text.split_of_not_mem (s := "") (by decide)] at parts

/-- A semicolon after the last declaration is never accepted. Where the text before it
is, the error names an empty part. -/
theorem parseCSS_trailing (s : String) :
    (∀ css, parseCSS (s ++ ";") ≠ .ok css) ∧
    (∀ css, parseCSS s = .ok css →
      parseCSS (s ++ ";") = .error (.errorf "invalid key-val %q in %q" ["", s ++ ";"])) := by
  have refused : declaration (s ++ ";") "" =
      .error (.errorf "invalid key-val %q in %q" ["", s ++ ";"]) := by
    rw [declaration, Text.split_of_not_mem (by decide)]
  have parts : parseCSS (s ++ ";") = (do
      let _ ← (Text.split ';' s).mapM (declaration (s ++ ";"))
      .error (.errorf "invalid key-val %q in %q" ["", s ++ ";"])) := by
    rw [parseCSS_eq, split_trailing, List.mapM_append, List.mapM_cons, refused, bind_assoc]
    rfl
  constructor
  · intro css accepted
    rw [parts, Fault.bind_eq_ok] at accepted
    obtain ⟨_, _, impossible⟩ := accepted
    cases impossible
  · intro css accepted
    obtain ⟨ds, each, _⟩ := parseCSS_eq_ok.mp accepted
    have read : (Text.split ';' s).mapM (declaration (s ++ ";")) = .ok ds := by
      simpa only [Fault.mapM_eq_ok, declaration_eq_ok] using each
    rw [parts, read, Fault.ok_bind]

end Gopherize.Jsx
