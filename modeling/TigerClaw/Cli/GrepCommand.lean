import TigerClaw.Cli.Grep
import TigerClaw.Library.ShellWords

/-!
# The command line of a search

`runViaRipgrep` of `src/cli/commands/tool_grep.zig` writes one line for `/bin/sh -c`.  The shell
cuts it into words, and `rg` takes those for options that begin with a dash.

* `shellQuote`, `commandLine`: the code.
* `OptionTable`, `positionals`: how `rg` reads its arguments.
* `words`: the words that are meant.
* `split_commandLine`: the shell finds exactly these, whatever the pattern, the glob and the path.
* `commandLine_safe_iff`: `rg` takes the pattern and the path for what they are exactly if they do
  not look like an option.
-/

namespace TigerClaw
namespace Cli
namespace Grep

/-- `GrepOptions`. -/
structure GrepOptions where
  pattern : Bytes
  path : Option Bytes := none
  glob : Option Bytes := none
  outputMode : OutputMode := .content
  caseInsensitive : Bool := false
  contextBefore : UInt32 := 0
  contextAfter : UInt32 := 0

/-- `for (s) |c|`: a quote ends the quotes, and is written outside of them. -/
def shellQuoteBody : Bytes → Bytes
  | [] => []
  | c :: s => (if c = 0x27 then ascii "'\\''" else [c]) ++ shellQuoteBody s

def shellQuote (s : Bytes) : Bytes := 0x27 :: (shellQuoteBody s ++ [0x27])

/-- `cmd.items` of `runViaRipgrep`. -/
def commandLine (opts : GrepOptions) : Bytes :=
  ascii "rg --no-heading -n" ++
  (if opts.caseInsensitive then ascii " -i" else []) ++
  (if 0 < opts.contextBefore then ascii " -B " ++ Digits.decimal opts.contextBefore.toNat
    else []) ++
  (if 0 < opts.contextAfter then ascii " -A " ++ Digits.decimal opts.contextAfter.toNat
    else []) ++
  (match opts.outputMode with
    | .content => []
    | .filesWithMatches => ascii " -l"
    | .count => ascii " -c") ++
  (match opts.glob with
    | none => []
    | some g => ascii " --glob " ++ shellQuote g) ++
  0x20 :: shellQuote opts.pattern ++
  (match opts.path with
    | none => []
    | some p => 0x20 :: shellQuote p)

/-! ## How `rg` reads its arguments -/

def dash : UInt8 := 0x2D

/-- Which options of `rg` take a value.  What is known of them is what the command line uses. -/
structure OptionTable where
  short : UInt8 → Bool
  long : Bytes → Bool
  short_n : short 0x6E = false
  short_i : short 0x69 = false
  short_l : short 0x6C = false
  short_c : short 0x63 = false
  short_B : short 0x42 = true
  short_A : short 0x41 = true
  long_noHeading : long (ascii "no-heading") = false
  long_glob : long (ascii "glob") = true

variable (table : OptionTable)

/-- A word of short options needs the next word, if the one that takes a value comes last. -/
def shortTakesNext : Bytes → Bool
  | [] => false
  | flag :: flags => if table.short flag then flags.isEmpty else shortTakesNext flags

/-- The value of an option is the next word. -/
def takesNext : Bytes → Bool
  | _ :: 0x2D :: name => !name.contains 0x3D && table.long name
  | _ :: flags => shortTakesNext table flags
  | [] => false

/-- A word that `rg` takes for a pattern or a path. -/
def Positional (word : Bytes) : Prop := word = [dash] ∨ word.head? ≠ some dash

instance (word : Bytes) : Decidable (Positional word) :=
  inferInstanceAs (Decidable (word = [dash] ∨ word.head? ≠ some dash))

/-- The positional arguments; `value` says that the next word is the value of an option.  Behind
`--` every word is positional. -/
def positionals : Bool → List Bytes → List Bytes
  | _, [] => []
  | true, _ :: rest => positionals false rest
  | false, word :: rest =>
    if Positional word then word :: positionals false rest
    else if word = [dash, dash] then rest
    else positionals (takesNext table word) rest

/-! ## The words that are meant -/

/-- The options that belong to the settings. -/
def optionWords (opts : GrepOptions) : List Bytes :=
  [ascii "--no-heading", ascii "-n"] ++
  (if opts.caseInsensitive then [ascii "-i"] else []) ++
  (if 0 < opts.contextBefore then [ascii "-B", Digits.decimal opts.contextBefore.toNat] else []) ++
  (if 0 < opts.contextAfter then [ascii "-A", Digits.decimal opts.contextAfter.toNat] else []) ++
  (match opts.outputMode with
    | .content => []
    | .filesWithMatches => [ascii "-l"]
    | .count => [ascii "-c"]) ++
  (match opts.glob with
    | none => []
    | some g => [ascii "--glob", g])

/-- The arguments of `rg`. -/
def argumentWords (opts : GrepOptions) : List Bytes :=
  optionWords opts ++ opts.pattern :: opts.path.toList

/-! ## The shell -/

open ShellWords (Reads blank)

theorem shellQuote_eq (s : Bytes) : shellQuote s = ShellWords.quote s := by
  have hbody : ∀ s : Bytes, shellQuoteBody s = s.flatMap ShellWords.quoteByte := by
    intro s
    induction s with
    | nil => rfl
    | cons c s ih =>
      rw [shellQuoteBody, ih, List.flatMap_cons]
      rfl
  rw [shellQuote, hbody]
  rfl

theorem reads_shellQuote (s : Bytes) : Reads (shellQuote s) s :=
  shellQuote_eq s ▸ ShellWords.reads_quote s

theorem reads_decimal (n : ℕ) : Reads (Digits.decimal n) (Digits.decimal n) := by
  have hdigit : ∀ d < 10, ShellWords.plain (Digits.digit d) = true := by decide
  refine ShellWords.reads_of_plain ?_ (List.all_eq_true.mpr ?_)
  · obtain ⟨d, ds, h, -⟩ := Digits.decimal_eq_cons n
    rw [h]
    exact List.cons_ne_nil _ _
  · induction n using Digits.decimal.induct with
    | case1 n hn =>
      intro b hb
      rw [Digits.decimal, if_pos hn, List.mem_singleton] at hb
      exact hb ▸ hdigit n hn
    | case2 n hn ih =>
      intro b hb
      rw [Digits.decimal, if_neg hn, List.mem_append, List.mem_singleton] at hb
      rcases hb with hb | rfl
      · exact ih b hb
      · exact hdigit _ (Nat.mod_lt n (by decide))

/-- The texts of the options on the line. -/
def optionTexts (opts : GrepOptions) : List Bytes :=
  [ascii "--no-heading", ascii "-n"] ++
  (if opts.caseInsensitive then [ascii "-i"] else []) ++
  (if 0 < opts.contextBefore then [ascii "-B", Digits.decimal opts.contextBefore.toNat] else []) ++
  (if 0 < opts.contextAfter then [ascii "-A", Digits.decimal opts.contextAfter.toNat] else []) ++
  (match opts.outputMode with
    | .content => []
    | .filesWithMatches => [ascii "-l"]
    | .count => [ascii "-c"]) ++
  (match opts.glob with
    | none => []
    | some g => [ascii "--glob", shellQuote g])

/-- The texts of the arguments on the line. -/
def argumentTexts (opts : GrepOptions) : List Bytes :=
  optionTexts opts ++ shellQuote opts.pattern :: (opts.path.map shellQuote).toList

/-- An option with a number, on the line and as texts. -/
theorem context_eq (n : UInt32) {lead flag : Bytes} (h : lead = blank :: (flag ++ [blank])) :
    (if 0 < n then lead ++ Digits.decimal n.toNat else []) =
      (if 0 < n then [flag, Digits.decimal n.toNat] else []).flatMap fun t => blank :: t := by
  split
  · rw [h, List.flatMap_cons, List.flatMap_singleton, List.cons_append, List.append_assoc,
      List.singleton_append, List.cons_append]
  · rfl

/-- The line is `rg` and the texts, with a blank in front of each. -/
theorem commandLine_eq (opts : GrepOptions) :
    commandLine opts = ascii "rg" ++ (argumentTexts opts).flatMap fun t => blank :: t := by
  have hrg : ascii "rg --no-heading -n" =
      ascii "rg" ++ [ascii "--no-heading", ascii "-n"].flatMap fun t => blank :: t := rfl
  have hi : (if opts.caseInsensitive then ascii " -i" else []) =
      (if opts.caseInsensitive then [ascii "-i"] else []).flatMap fun t => blank :: t := by
    split <;> rfl
  have hB := context_eq opts.contextBefore
    (show ascii " -B " = blank :: (ascii "-B" ++ [blank]) from rfl)
  have hA := context_eq opts.contextAfter
    (show ascii " -A " = blank :: (ascii "-A" ++ [blank]) from rfl)
  have hmode : (match opts.outputMode with
      | .content => []
      | .filesWithMatches => ascii " -l"
      | .count => ascii " -c") =
      (match opts.outputMode with
      | .content => []
      | .filesWithMatches => [ascii "-l"]
      | .count => [ascii "-c"]).flatMap fun t => blank :: t := by
    cases opts.outputMode <;> rfl
  have hglob : (match opts.glob with
      | none => []
      | some g => ascii " --glob " ++ shellQuote g) =
      (match opts.glob with
      | none => []
      | some g => [ascii "--glob", shellQuote g]).flatMap fun t => blank :: t := by
    cases opts.glob with
    | none => rfl
    | some g =>
      dsimp only
      rw [List.flatMap_cons, List.flatMap_singleton]
      rfl
  have hpath : (match opts.path with
      | none => []
      | some p => 0x20 :: shellQuote p) =
      (opts.path.map shellQuote).toList.flatMap fun t => blank :: t := by
    cases opts.path with
    | none => rfl
    | some p => exact (List.flatMap_singleton _ _).symm
  rw [commandLine, hrg, hi, hB, hA, hmode, hglob, hpath, argumentTexts, optionTexts]
  simp only [List.flatMap_append, List.flatMap_cons, List.append_assoc, List.cons_append]
  rfl

/-- Every text stands for its word. -/
theorem reads_arguments (opts : GrepOptions) :
    List.Forall₂ Reads (argumentTexts opts) (argumentWords opts) := by
  have hplain : ∀ t : Bytes, t ≠ [] → t.all ShellWords.plain = true → Reads t t :=
    fun _ => ShellWords.reads_of_plain
  have hcontext : ∀ (n : UInt32) (flag : Bytes), Reads flag flag →
      List.Forall₂ Reads (if 0 < n then [flag, Digits.decimal n.toNat] else [])
        (if 0 < n then [flag, Digits.decimal n.toNat] else []) := by
    intro n flag hflag
    split
    · exact .cons hflag (.cons (reads_decimal _) .nil)
    · exact .nil
  have hfixed : List.Forall₂ Reads [ascii "--no-heading", ascii "-n"]
      [ascii "--no-heading", ascii "-n"] :=
    .cons (hplain _ (by decide) (by decide)) (.cons (hplain _ (by decide) (by decide)) .nil)
  have hi : List.Forall₂ Reads (if opts.caseInsensitive then [ascii "-i"] else [])
      (if opts.caseInsensitive then [ascii "-i"] else []) := by
    split
    · exact .cons (hplain _ (by decide) (by decide)) .nil
    · exact .nil
  have hB := hcontext opts.contextBefore (ascii "-B") (hplain _ (by decide) (by decide))
  have hA := hcontext opts.contextAfter (ascii "-A") (hplain _ (by decide) (by decide))
  refine List.rel_append ?_ (.cons (reads_shellQuote _) ?_)
  · rw [optionTexts, optionWords]
    refine List.rel_append (List.rel_append (List.rel_append (List.rel_append
      (List.rel_append hfixed hi) hB) hA) ?_) ?_
    · cases opts.outputMode with
      | content => exact .nil
      | filesWithMatches | count => exact .cons (hplain _ (by decide) (by decide)) .nil
    · cases opts.glob with
      | none => exact .nil
      | some g => exact .cons (hplain _ (by decide) (by decide)) (.cons (reads_shellQuote g) .nil)
  · cases opts.path with
    | none => exact .nil
    | some p => exact .cons (reads_shellQuote p) .nil

/-- **The shell finds the words that are meant**, in one simple command without expansions. -/
theorem split_commandLine (opts : GrepOptions) :
    ShellWords.split (commandLine opts) = some (ascii "rg" :: argumentWords opts) := by
  have hrg : Reads (ascii "rg") (ascii "rg") := ShellWords.reads_of_plain (by decide) (by decide)
  rw [commandLine_eq]
  exact ShellWords.split_line hrg (reads_arguments opts)

/-! ## The option grammar -/

theorem positionals_of_positional {word : Bytes} (h : Positional word) (rest : List Bytes) :
    positionals table false (word :: rest) = word :: positionals table false rest := if_pos h

/-- An option, and what it needs. -/
theorem positionals_option {word : Bytes} {needs : Bool} (hword : ¬ Positional word)
    (hdashes : word ≠ [dash, dash]) (hneeds : takesNext table word = needs) (rest : List Bytes) :
    positionals table false (word :: rest) = positionals table needs rest := by
  rw [positionals, if_neg hword, if_neg hdashes, hneeds]

theorem shortTakesNext_singleton (flag : UInt8) :
    shortTakesNext table [flag] = table.short flag := by
  rw [shortTakesNext, shortTakesNext]
  cases table.short flag <;> rfl

/-- A flag of the command line. -/
theorem positionals_flag {flag : UInt8} (hflag : table.short flag = false) (hdash : flag ≠ dash)
    (rest : List Bytes) :
    positionals table false ([dash, flag] :: rest) = positionals table false rest := by
  have hword : ¬ Positional [dash, flag] := by simp [Positional]
  have hneeds : takesNext table [dash, flag] = false := by
    rw [takesNext, shortTakesNext_singleton, hflag]
    rintro _ ⟨rfl, -⟩
    exact hdash rfl
  exact positionals_option table hword (by simp [hdash]) hneeds rest

/-- An option of the command line with its value. -/
theorem positionals_value {word : Bytes} (hword : ¬ Positional word) (hdashes : word ≠ [dash, dash])
    (hneeds : takesNext table word = true) (value : Bytes) (rest : List Bytes) :
    positionals table false (word :: value :: rest) = positionals table false rest := by
  rw [positionals_option table hword hdashes hneeds, positionals]

/-- The options of the command line are options with their values, and nothing else. -/
theorem positionals_optionWords (opts : GrepOptions) (rest : List Bytes) :
    positionals table false (optionWords opts ++ rest) = positionals table false rest := by
  have hheading : ∀ rest, positionals table false (ascii "--no-heading" :: rest) =
      positionals table false rest :=
    positionals_option table (by decide) (by decide) table.long_noHeading
  have hcontext : ∀ (n : UInt32) (word : Bytes) (rest : List Bytes), ¬ Positional word →
      word ≠ [dash, dash] → takesNext table word = true →
      positionals table false ((if 0 < n then [word, Digits.decimal n.toNat] else []) ++ rest) =
        positionals table false rest := by
    intro n word rest hword hdashes hneeds
    split
    · exact positionals_value table hword hdashes hneeds _ rest
    · rfl
  have hlong : takesNext table (ascii "--glob") = true := table.long_glob
  have hB : takesNext table (ascii "-B") = true :=
    (shortTakesNext_singleton table 0x42).trans table.short_B
  have hA : takesNext table (ascii "-A") = true :=
    (shortTakesNext_singleton table 0x41).trans table.short_A
  have hi : ∀ rest, positionals table false ((if opts.caseInsensitive then [ascii "-i"] else []) ++
      rest) = positionals table false rest := by
    intro rest
    split
    · exact positionals_flag table table.short_i (by decide) rest
    · rfl
  have hmode : ∀ rest, positionals table false ((match opts.outputMode with
      | .content => []
      | .filesWithMatches => [ascii "-l"]
      | .count => [ascii "-c"]) ++ rest) = positionals table false rest := by
    intro rest
    cases opts.outputMode with
    | content => rfl
    | filesWithMatches => exact positionals_flag table table.short_l (by decide) rest
    | count => exact positionals_flag table table.short_c (by decide) rest
  have hglob : ∀ rest, positionals table false ((match opts.glob with
      | none => []
      | some g => [ascii "--glob", g]) ++ rest) = positionals table false rest := by
    intro rest
    cases opts.glob with
    | none => rfl
    | some g =>
      exact positionals_value table (by decide) (by decide) hlong g rest
  rw [optionWords]
  simp only [List.append_assoc, List.cons_append, List.nil_append]
  rw [hheading, show ascii "-n" = [dash, 0x6E] from rfl,
    positionals_flag table table.short_n (by decide), hi,
    hcontext _ _ _ (by decide) (by decide) hB, hcontext _ _ _ (by decide) (by decide) hA, hmode,
    hglob]

theorem length_positionals_le (value : Bool) (args : List Bytes) :
    (positionals table value args).length ≤ args.length := by
  induction args generalizing value with
  | nil =>
    rw [positionals]
  | cons word rest ih =>
    cases value with
    | true =>
      rw [positionals]
      exact (ih false).trans (Nat.le_succ _)
    | false =>
      rw [positionals]
      split_ifs
      · exact Nat.succ_le_succ (ih false)
      · exact Nat.le_succ _
      · exact (ih _).trans (Nat.le_succ _)

/-- A pattern or path is taken for what it is exactly if it does not look like an option. -/
theorem positionals_cons_eq_iff (word : Bytes) (rest : List Bytes) :
    positionals table false (word :: rest) = word :: rest ↔
      Positional word ∧ positionals table false rest = rest := by
  constructor
  · intro h
    by_cases hword : Positional word
    · rw [positionals_of_positional table hword] at h
      exact ⟨hword, (List.cons.inj h).2⟩
    · -- The word is missing, and nothing takes its place.
      have hshort : (positionals table false (word :: rest)).length ≤ rest.length := by
        rw [positionals, if_neg hword]
        split
        · exact Nat.le_refl _
        · exact length_positionals_le table _ rest
      rw [h] at hshort
      exact absurd hshort (Nat.not_succ_le_self _)
  · rintro ⟨hword, hrest⟩
    rw [positionals_of_positional table hword, hrest]

/-- **The command line is free of injections** exactly if neither the pattern nor the path looks
like an option of `rg`. -/
theorem commandLine_safe_iff (table : OptionTable) (opts : GrepOptions) :
    (ShellWords.split (commandLine opts) = some (ascii "rg" :: argumentWords opts) ∧
        positionals table false (argumentWords opts) = opts.pattern :: opts.path.toList) ↔
      Positional opts.pattern ∧ ∀ p ∈ opts.path, Positional p := by
  rw [and_iff_right (split_commandLine opts), argumentWords, positionals_optionWords,
    positionals_cons_eq_iff]
  refine and_congr_right fun _ => ?_
  cases opts.path with
  | none => exact iff_of_true rfl fun p hp => absurd hp (by simp)
  | some p =>
    rw [Option.toList_some, positionals_cons_eq_iff]
    have hnil : positionals table false [] = [] := rfl
    simp [hnil]

/-- The options of `rg` that take a value, among those that are written here and `-e`. -/
def someOptions : OptionTable where
  short := fun flag => [0x41, 0x42, 0x65].contains flag
  long := fun name => name == ascii "glob"
  short_n := rfl
  short_i := rfl
  short_l := rfl
  short_c := rfl
  short_B := rfl
  short_A := rfl
  long_noHeading := rfl
  long_glob := rfl

/-- A pattern `-e` is an option, and takes the path for its value. -/
theorem commandLine_dash :
    ¬ (ShellWords.split (commandLine { pattern := ascii "-e", path := some (ascii "src") }) =
        some (ascii "rg" ::
          argumentWords { pattern := ascii "-e", path := some (ascii "src") }) ∧
      positionals someOptions false
          (argumentWords { pattern := ascii "-e", path := some (ascii "src") }) =
        [ascii "-e", ascii "src"]) := by
  rintro ⟨-, h⟩
  exact absurd h (by decide)

end Grep
end Cli
end TigerClaw
