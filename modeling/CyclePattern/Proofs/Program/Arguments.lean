/-
# Spelled requests

The options and the pattern of a command line may stand in any order. A value follows its option as
the next argument or after an equals sign, and a pattern that looks like an option follows two
dashes. Every request can be spelled so, and the arguments that spell it come to it.
-/

import CyclePattern.Program.Arguments
import CyclePattern.Proofs.Export.Visible
import Mathlib.Algebra.Group.Nat.Defs
import Mathlib.Data.List.Basic

namespace CyclePattern.Program

open Text

theorem digitValue?_of_isDigit {c : Char} (hc : c.isDigit = true) :
    digitValue? c = some (c.toNat - 48) := by
  obtain ⟨hlow, hhigh⟩ := toNat_of_isDigit hc
  have hfirst : 0x30 ≤ c.toNat ∧ c.toNat < 0x30 + 10 := ⟨hlow, by omega⟩
  rw [digitValue?, digitZeros, List.findSome?_cons, if_pos hfirst]

theorem digitsValue_eq_ofDigitChars {digits : List Char}
    (hdigits : ∀ c ∈ digits, c.isDigit = true) :
    digitsValue digits = Nat.ofDigitChars 10 digits 0 := by
  rw [digitsValue, Nat.ofDigitChars]
  refine List.foldl_ext _ _ _ ?_
  intro total c hc
  rw [digitValue?_of_isDigit (hdigits c hc)]
  rfl

theorem digitGroups_of_isDigit {digits : List Char} (hdigits : ∀ c ∈ digits, c.isDigit = true)
    {afterDigit : Bool} (hafter : digits = [] → afterDigit = true) (read : List Char) :
    readInteger?.digitGroups afterDigit read digits = some (digits.reverse ++ read) := by
  induction digits generalizing afterDigit read with
  | nil => simp [readInteger?.digitGroups, hafter rfl]
  | cons c digits ih =>
      obtain ⟨hc, hrest⟩ := List.forall_mem_cons.mp hdigits
      have hdecimal : isDecimal c = true := by
        rw [isDecimal, digitValue?_of_isDigit hc]
        rfl
      rw [readInteger?.digitGroups, if_pos hdecimal, ih hrest fun _ => rfl]
      simp

theorem skipBlanks_trimEnd {cs : List Char} (hcs : ∀ c ∈ cs, isBlank c = false) :
    skipBlanks (trimEnd cs) = cs := by
  have hkept : ∀ ds : List Char, (∀ c ∈ ds, isBlank c = false) → ds.dropWhile isBlank = ds := by
    intro ds hds
    cases ds with
    | nil => rfl
    | cons d ds => rw [List.dropWhile_cons, hds d List.mem_cons_self, if_neg Bool.false_ne_true]
  rw [trimEnd, hkept cs.reverse (by simpa using hcs), List.reverse_reverse, skipBlanks,
    hkept cs hcs]

/-- A number that is written is read again, unless it has too many digits. -/
theorem readInteger?_toString (n : Int) :
    readInteger? (toString n).toList = if n.natAbs < 10 ^ digitLimit then some n else none := by
  have hdigit (m : Nat) : ∀ c ∈ Nat.toDigits 10 m, c.isDigit = true := fun c hc =>
    Nat.isDigit_of_mem_toDigits (by decide) (by decide) hc
  have hgroups (m : Nat) : readInteger?.digitGroups false [] (Nat.toDigits 10 m) =
      some (Nat.toDigits 10 m).reverse := by
    have hnonempty : Nat.toDigits 10 m ≠ [] := List.length_pos_iff.mp Nat.length_toDigits_pos
    rw [digitGroups_of_isDigit (hdigit m) fun hempty => absurd hempty hnonempty, List.append_nil]
  have hvalue (m : Nat) : digitsValue (Nat.toDigits 10 m) = m := by
    rw [digitsValue_eq_ofDigitChars (hdigit m), Nat.ofDigitChars_ten_toDigits]
  have hlong (m : Nat) : digitLimit < (Nat.toDigits 10 m).length ↔ ¬ m < 10 ^ digitLimit := by
    rw [← Nat.not_le, Nat.length_toDigits_le_iff (by decide) (by decide)]
  rw [Int.toString_eq_repr]
  cases n with
  | ofNat m =>
      have htext : (Int.ofNat m).repr.toList = Nat.toDigits 10 m := Nat.toList_repr
      have hblank : ∀ c ∈ Nat.toDigits 10 m, isBlank c = false :=
        fun c hc => isBlank_of_isDigit (hdigit m c hc)
      rw [htext, readInteger?, skipBlanks_trimEnd hblank]
      split
      next negative digits hsign =>
        split at hsign
        · next rest hminus =>
            exact absurd (hdigit m '-' (by rw [hminus]; exact List.mem_cons_self)) (by decide)
        · next rest hplus =>
            exact absurd (hdigit m '+' (by rw [hplus]; exact List.mem_cons_self)) (by decide)
        · cases hsign
          simp only [hgroups, List.length_reverse, List.reverse_reverse, hvalue, hlong, ite_not]
          rfl
  | negSucc m =>
      have htext : (Int.negSucc m).repr.toList = '-' :: Nat.toDigits 10 m.succ := by
        change ("-" ++ m.succ.repr).toList = _
        rw [String.toList_append, Nat.toList_repr]
        rfl
      have hblank : ∀ c ∈ '-' :: Nat.toDigits 10 m.succ, isBlank c = false :=
        List.forall_mem_cons.mpr ⟨by decide, fun c hc => isBlank_of_isDigit (hdigit _ c hc)⟩
      rw [htext, readInteger?, skipBlanks_trimEnd hblank]
      simp only [hgroups, List.length_reverse, List.reverse_reverse, hvalue, hlong, ite_not]
      rfl

namespace Argument

variable {s : String} {rest : List String} {argument : Argument} {others : List Argument}

theorem ne_dashes_of_ofText (hs : ofText s = .ok argument) : s ≠ "--" := by
  rintro rfl
  have hambiguous : ∃ error, ofText "--" = .error error := ⟨_, rfl⟩
  obtain ⟨error, herror⟩ := hambiguous
  rw [hs] at herror
  cases herror

theorem ofTexts_cons (hs : ofText s = .ok argument) (hrest : ofTexts rest = .ok others) :
    ofTexts (s :: rest) = .ok (argument :: others) := by
  rw [ofTexts, if_neg (ne_dashes_of_ofText hs), hs, hrest]
  rfl

/-- No option is spelled with an equals sign. -/
theorem spelledOut?_eq_none {cs : List Char} (hcs : '=' ∈ cs) : spelledOut? cs = none := by
  rw [spelledOut?, List.lookup_eq_none_iff]
  intro spelling hspelling
  have hnone : '=' ∉ spelling.1.toList := by
    revert spelling
    decide
  rw [bne_iff_ne]
  rintro hsame
  rw [← hsame, String.toList_ofList] at hnone
  exact hnone hcs

theorem splitValue_append {name : List Char} (hname : '=' ∉ name) (value : List Char) :
    splitValue (name ++ '=' :: value) = (name, some (String.ofList value)) := by
  have hall : ∀ c ∈ name, (c != '=') = true := by
    intro c hc
    rw [bne_iff_ne]
    rintro rfl
    exact hname hc
  rw [splitValue, List.dropWhile_append_of_pos hall, List.takeWhile_append_of_pos hall]
  simp

/-- An option is spelled by its name. -/
theorem ofText_name {flag : Flag} (hflag : flag.hasValue = true) :
    ofText flag.name = .ok (.option flag none) := by
  revert hflag
  cases flag <;> decide +kernel

/-- A value may stand after the name and an equals sign. -/
theorem ofText_assigned {flag : Flag} (hflag : flag.hasValue = true) (value : String) :
    ofText (flag.name ++ "=" ++ value) = .ok (.option flag (some value)) := by
  have hname : '=' ∉ flag.name.toList ∧ spelledOut? flag.name.toList = some flag := by
    revert hflag
    cases flag <;> decide +kernel
  have hlong : ∃ c rest, flag.name.toList = '-' :: c :: rest := by
    cases flag <;> exact ⟨_, _, rfl⟩
  obtain ⟨c, rest, hchars⟩ := hlong
  have htext : (flag.name ++ "=" ++ value).toList = '-' :: c :: (rest ++ '=' :: value.toList) := by
    simp [String.toList_append, hchars]
  have hsplit := splitValue_append hname.1 value.toList
  rw [hchars, List.cons_append, List.cons_append, String.ofList_toList] at hsplit
  have hwhole : spelledOut? ('-' :: c :: (rest ++ '=' :: value.toList)) = none :=
    spelledOut?_eq_none (by simp)
  rw [ofText, htext]
  simp only [hwhole, hsplit, ← hchars, hname.2]

end Argument

/-- A value is given to an option: as the next argument, unless it looks like an option itself, or
after an equals sign. -/
inductive Given (flag : Flag) (value : String) : List String → Prop
  | next (hplain : Argument.ofText value = .ok (.plain value)) :
      Given flag value [flag.name, value]
  | assigned : Given flag value [flag.name ++ "=" ++ value]

/-- Taking the value of an option sets it. -/
theorem Given.exists_arguments {flag : Flag} {value : String} {given : List String}
    (hgiven : Given flag value given) (hflag : flag.hasValue = true) :
    ∃ front : List Argument,
      (∀ rest others, Argument.ofTexts rest = .ok others →
        Argument.ofTexts (given ++ rest) = .ok (front ++ others)) ∧
      (∀ others, (front ++ others).head? ≠ some .dashes) ∧
      ∀ (request : Request) others, request.ofArguments (front ++ others) =
        request.setValue flag value >>= fun next => next.ofArguments others := by
  cases hgiven with
  | next hplain =>
      refine ⟨[.option flag none, .plain value], ?_, fun _ => by simp, ?_⟩
      · intro rest others hrest
        exact Argument.ofTexts_cons (Argument.ofText_name hflag)
          (Argument.ofTexts_cons hplain hrest)
      · intro request others
        cases flag <;> first | rfl | cases hflag
  | assigned =>
      refine ⟨[.option flag (some value)], ?_, fun _ => by simp, fun _ _ => rfl⟩
      intro rest others hrest
      exact Argument.ofTexts_cons (Argument.ofText_assigned hflag value) hrest

namespace Request

/-- The arguments `texts` lead from what was asked for before to what is asked for in the end. The
pattern and each value are given once; a pattern that looks like an option comes last, after two
dashes. -/
inductive Spelled : Request → List String → Request → Prop
  | done (request : Request) : Spelled request [] request
  | pattern {request last : Request} {s : String} {rest : List String}
      (hplain : Argument.ofText s = .ok (.plain s)) (hfirst : request.pattern = none)
      (hrest : Spelled { request with pattern := some s } rest last) :
      Spelled request (s :: rest) last
  | dashes {request : Request} (s : String) (hfirst : request.pattern = none) :
      Spelled request ["--", s] { request with pattern := some s }
  | tree {request last : Request} {rest : List String}
      (hrest : Spelled { request with tree := true } rest last) :
      Spelled request ("--ast" :: rest) last
  | verbose {request last : Request} {rest : List String}
      (hrest : Spelled { request with verbose := true } rest last) :
      Spelled request ("--verbose" :: rest) last
  | config {request last : Request} {path : String} {given rest : List String}
      (hgiven : Given .config path given) (hfirst : request.config = none)
      (hrest : Spelled { request with config := some path } rest last) :
      Spelled request (given ++ rest) last
  | format {request last : Request} {name : String} {given rest : List String}
      (hgiven : Given .format name given) (hfirst : request.format = none)
      (hrest : Spelled { request with format := some name } rest last) :
      Spelled request (given ++ rest) last
  | maxDepth {request last : Request} {digits : String} {limit : Int} {given rest : List String}
      (hgiven : Given .maxDepth digits given) (hlimit : readInteger? digits.toList = some limit)
      (hfirst : request.maxDepth = none)
      (hrest : Spelled { request with maxDepth := some limit } rest last) :
      Spelled request (given ++ rest) last
  /-- A limit with more digits than are converted is written in full. -/
  | longDepth {request last : Request} {limit : Int} {given rest : List String}
      (hgiven : Given .maxDepth (toString limit) given) (hlong : 10 ^ digitLimit ≤ limit.natAbs)
      (hfirst : request.maxDepth = none)
      (hrest : Spelled { request with maxDepth := some limit } rest last) :
      Spelled request (given ++ rest) last

variable {request last : Request} {texts : List String}

theorem Spelled.extra_eq (hspelled : Spelled request texts last) : last.extra = request.extra := by
  induction hspelled with
  | done | dashes => rfl
  | pattern _ _ _ ih | tree _ ih | verbose _ ih | config _ _ _ ih | format _ _ _ ih
  | maxDepth _ _ _ _ ih | longDepth _ _ _ _ ih => exact ih

/-- A format that is given stays. -/
theorem Spelled.format_eq (hspelled : Spelled request texts last) {name : String}
    (hname : request.format = some name) : last.format = some name := by
  induction hspelled with
  | done | dashes => exact hname
  | pattern _ _ _ ih | tree _ ih | verbose _ ih | config _ _ _ ih | maxDepth _ _ _ _ ih
  | longDepth _ _ _ _ ih => exact ih hname
  | format _ hfirst _ ih =>
      rw [hfirst] at hname
      cases hname

/-- A nesting limit that is given stays. -/
theorem Spelled.maxDepth_eq (hspelled : Spelled request texts last) {limit : Int}
    (hlimit : request.maxDepth = some limit) : last.maxDepth = some limit := by
  induction hspelled with
  | done | dashes => exact hlimit
  | pattern _ _ _ ih | tree _ ih | verbose _ ih | config _ _ _ ih | format _ _ _ ih =>
      exact ih hlimit
  | maxDepth _ _ hfirst _ ih | longDepth _ _ hfirst _ ih =>
      rw [hfirst] at hlimit
      cases hlimit

/-- Whatever is asked for can be spelled. -/
theorem exists_spelled (hpattern : request.pattern ≠ none) (hextra : request.extra = []) :
    ∃ texts, Spelled empty texts request := by
  obtain ⟨pattern, config, tree, format, maxDepth, verbose, extra⟩ := request
  obtain ⟨pattern, rfl⟩ := Option.ne_none_iff_exists'.mp hpattern
  cases hextra
  have hverbose : ∃ texts, Spelled ⟨none, config, tree, format, maxDepth, false, []⟩ texts
      ⟨some pattern, config, tree, format, maxDepth, verbose, []⟩ := by
    cases verbose with
    | false => exact ⟨_, .dashes pattern rfl⟩
    | true => exact ⟨_, .verbose (.dashes pattern rfl)⟩
  have hdepth : ∃ texts, Spelled ⟨none, config, tree, format, none, false, []⟩ texts
      ⟨some pattern, config, tree, format, maxDepth, verbose, []⟩ := by
    obtain ⟨texts, hspelled⟩ := hverbose
    cases maxDepth with
    | none => exact ⟨texts, hspelled⟩
    | some limit =>
        by_cases hshort : limit.natAbs < 10 ^ digitLimit
        · have hread := readInteger?_toString limit
          rw [if_pos hshort] at hread
          exact ⟨_, .maxDepth .assigned hread rfl hspelled⟩
        · exact ⟨_, .longDepth .assigned (Nat.not_lt.mp hshort) rfl hspelled⟩
  have hformat : ∃ texts, Spelled ⟨none, config, tree, none, none, false, []⟩ texts
      ⟨some pattern, config, tree, format, maxDepth, verbose, []⟩ := by
    obtain ⟨texts, hspelled⟩ := hdepth
    cases format with
    | none => exact ⟨texts, hspelled⟩
    | some name => exact ⟨_, .format .assigned rfl hspelled⟩
  have htree : ∃ texts, Spelled ⟨none, config, false, none, none, false, []⟩ texts
      ⟨some pattern, config, tree, format, maxDepth, verbose, []⟩ := by
    obtain ⟨texts, hspelled⟩ := hformat
    cases tree with
    | false => exact ⟨texts, hspelled⟩
    | true => exact ⟨_, .tree hspelled⟩
  obtain ⟨texts, hspelled⟩ := htree
  cases config with
  | none => exact ⟨texts, hspelled⟩
  | some path => exact ⟨_, .config .assigned rfl hspelled⟩

theorem ofArguments_plain {s : String} {others : List Argument} (hfirst : request.pattern = none)
    (hothers : others.head? ≠ some .dashes) :
    request.ofArguments (.plain s :: others) =
      ofArguments { request with pattern := some s } others := by
  have hpattern : request.pattern.isNone = true := by rw [hfirst]; rfl
  cases others with
  | nil => simp only [ofArguments, hpattern, if_true]
  | cons argument rest =>
      cases argument with
      | dashes => exact absurd rfl hothers
      | _ => simp only [ofArguments, hpattern, if_true]

/-- The format of a request is none, or its nesting limit has more digits than are converted. -/
def Unsuited (request : Request) : Prop :=
  (∃ name ∈ request.format, name ∉ formats) ∨
    ∃ limit ∈ request.maxDepth, 10 ^ digitLimit ≤ limit.natAbs

/-- Arguments come to a request. They may be refused on the way if it is unsuited. -/
structure ComesTo (request : Request) (arguments : List Argument) (last : Request) : Prop where
  /-- Two dashes stand in front of a pattern only. -/
  head : request.pattern ≠ none → arguments.head? ≠ some .dashes
  outcome : request.ofArguments arguments = .ok (some last) ∨
    (∃ error, request.ofArguments arguments = .error error) ∧ last.Unsuited

/-- One more argument, or two, in front. -/
theorem ComesTo.cons {next : Request} {arguments longer : List Argument}
    (hcomes : ComesTo next arguments last) (hhead : longer.head? ≠ some .dashes)
    (hstep : request.ofArguments longer = next.ofArguments arguments) :
    ComesTo request longer last where
  head := fun _ => hhead
  outcome := by
    rw [hstep]
    exact hcomes.outcome

/-- An option in front whose value is set, or is refused in a request that is unsuited. -/
theorem ComesTo.option {next : Request} {flag : Flag} {value : String}
    {front others : List Argument} (hcomes : ComesTo next others last)
    (hhead : (front ++ others).head? ≠ some .dashes)
    (hset : request.ofArguments (front ++ others) =
      request.setValue flag value >>= fun next => next.ofArguments others)
    (hvalue : request.setValue flag value = .ok next ∨
      (∃ error, request.setValue flag value = .error error) ∧ last.Unsuited) :
    ComesTo request (front ++ others) last := by
  rcases hvalue with hnext | ⟨⟨error, herror⟩, hunsuited⟩
  · rw [hnext] at hset
    exact hcomes.cons hhead hset
  · rw [herror] at hset
    exact ⟨fun _ => hhead, .inr ⟨⟨error, hset⟩, hunsuited⟩⟩

theorem setValue_format {name : String} (hlast : last.format = some name) :
    request.setValue .format name = .ok { request with format := some name } ∨
      (∃ error, request.setValue .format name = .error error) ∧ last.Unsuited := by
  by_cases hname : name ∈ formats
  · exact .inl (if_pos (List.contains_iff_mem.mpr hname))
  · exact .inr ⟨⟨_, if_neg (by rwa [List.contains_iff_mem])⟩, .inl ⟨name, hlast, hname⟩⟩

/-- Arguments that spell a request come to it. -/
theorem Spelled.exists_arguments (hspelled : Spelled request texts last) :
    ∃ arguments, Argument.ofTexts texts = .ok arguments ∧ ComesTo request arguments last := by
  induction hspelled with
  | done request => exact ⟨[], rfl, fun _ => by simp, .inl rfl⟩
  | pattern hplain hfirst hrest ih =>
      obtain ⟨others, hothers, hcomes⟩ := ih
      refine ⟨_, Argument.ofTexts_cons hplain hothers, hcomes.cons (by simp) ?_⟩
      exact ofArguments_plain hfirst (hcomes.head (by simp))
  | @dashes request s hfirst =>
      have hstep : request.ofArguments [.dashes, .plain s] =
          .ok (some { request with pattern := some s }) := by
        simp [ofArguments, hfirst]
      exact ⟨[.dashes, .plain s], rfl, fun hpattern => absurd hfirst hpattern, .inl hstep⟩
  | tree hrest ih =>
      obtain ⟨others, hothers, hcomes⟩ := ih
      have htext : Argument.ofText "--ast" = .ok (.option .tree none) := by decide +kernel
      exact ⟨_, Argument.ofTexts_cons htext hothers, hcomes.cons (by simp) rfl⟩
  | verbose hrest ih =>
      obtain ⟨others, hothers, hcomes⟩ := ih
      have htext : Argument.ofText "--verbose" = .ok (.option .verbose none) := by decide +kernel
      exact ⟨_, Argument.ofTexts_cons htext hothers, hcomes.cons (by simp) rfl⟩
  | config hgiven hfirst hrest ih =>
      obtain ⟨others, hothers, hcomes⟩ := ih
      obtain ⟨front, htexts, hhead, hset⟩ := hgiven.exists_arguments rfl
      exact ⟨_, htexts _ _ hothers, hcomes.option (hhead _) (hset _ _) (.inl rfl)⟩
  | @format request last name given rest hgiven hfirst hrest ih =>
      obtain ⟨others, hothers, hcomes⟩ := ih
      obtain ⟨front, htexts, hhead, hset⟩ := hgiven.exists_arguments rfl
      exact ⟨_, htexts _ _ hothers, hcomes.option (hhead _) (hset _ _)
        (setValue_format (hrest.format_eq rfl))⟩
  | @maxDepth request last digits limit given rest hgiven hlimit hfirst hrest ih =>
      obtain ⟨others, hothers, hcomes⟩ := ih
      obtain ⟨front, htexts, hhead, hset⟩ := hgiven.exists_arguments rfl
      have hvalue : request.setValue .maxDepth digits =
          .ok { request with maxDepth := some limit } := by
        simp only [setValue, hlimit]
      exact ⟨_, htexts _ _ hothers, hcomes.option (hhead _) (hset _ _) (.inl hvalue)⟩
  | @longDepth request last limit given rest hgiven hlong hfirst hrest ih =>
      obtain ⟨others, hothers, hcomes⟩ := ih
      obtain ⟨front, htexts, hhead, hset⟩ := hgiven.exists_arguments rfl
      have hread := readInteger?_toString limit
      rw [if_neg (Nat.not_lt.mpr hlong)] at hread
      have hvalue : request.setValue .maxDepth (toString limit) =
          .error (.notAnInteger .maxDepth (toString limit)) := by
        simp only [setValue, hread]
      exact ⟨_, htexts _ _ hothers, hcomes.option (hhead _) (hset _ _)
        (.inr ⟨⟨_, hvalue⟩, .inr ⟨limit, hrest.maxDepth_eq rfl, hlong⟩⟩)⟩

theorem ofTexts_of_spelled (hspelled : Spelled empty texts last) (hpattern : last.pattern ≠ none) :
    ofTexts texts = .ok (some last) ∨
      (∃ error, ofTexts texts = .error error) ∧ last.Unsuited := by
  obtain ⟨arguments, htexts, hcomes⟩ := hspelled.exists_arguments
  have hextra : last.extra = [] := hspelled.extra_eq
  have hgiven : ¬ last.pattern.isNone = true := by rwa [Option.isNone_iff_eq_none]
  rw [ofTexts, htexts]
  change (ofArguments empty arguments >>= _) = _ ∨ (∃ error, (ofArguments empty arguments >>= _) =
    .error error) ∧ _
  rcases hcomes.outcome with hlast | ⟨⟨error, herror⟩, hunsuited⟩
  · rw [hlast]
    left
    change (if _ then _ else _) = _
    rw [if_neg hgiven, hextra]
    rfl
  · rw [herror]
    exact .inr ⟨⟨error, rfl⟩, hunsuited⟩

end Request

end CyclePattern.Program
