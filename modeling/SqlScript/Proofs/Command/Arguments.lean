import Mathlib.Data.List.Induction
import SqlScript.Binary64.Decimal
import SqlScript.Command.Options

/-!
# The language of the command line

Arguments stand in groups: an option with what it takes, or the path of the input. A list of
arguments gives options exactly if it is a row of groups, and of the groups that set one option the
last one counts. Otherwise the first place where no group stands decides, whatever is behind it
(`Options.ofArgs_exact`).
-/

namespace SqlScript.Command

/-- Decimal digits, with or without a plus sign, that stand for a number of 64 bits. -/
def IsLimit (text : String) (n : Nat) : Prop :=
  ∃ digits, (text.toList = digits ∨ text.toList = '+' :: digits) ∧ digits ≠ [] ∧
    (∀ c ∈ digits, c.isDigit = true) ∧ digitsValue digits = n ∧ n < UInt64.size

/-- Some arguments that belong together. -/
inductive Group
  | label (text : String)
  | output (path : String)
  | limit (text : String) (n : Nat)
  | input (path : String)
deriving DecidableEq

/-- What a group is about. -/
inductive Setting
  | label
  | output
  | limit
  | input
deriving DecidableEq

namespace Group

/-- The arguments of a group. What an option takes may look like anything. -/
def words : Group → List String
  | label text => ["--name", text]
  | output path => ["--out", path]
  | limit text _ => ["--inline-limit", text]
  | input path => [path]

def Valid : Group → Prop
  | limit text n => IsLimit text n
  | input path => path ≠ "-h" ∧ ¬ "--".toList <+: path.toList
  | _ => True

def setting : Group → Setting
  | label _ => .label
  | output _ => .output
  | limit _ _ => .limit
  | input _ => .input

def label? : Group → Option String
  | label text => some text
  | _ => none

def output? : Group → Option String
  | output path => some path
  | _ => none

def limit? : Group → Option Nat
  | limit _ n => some n
  | _ => none

def input? : Group → Option String
  | input path => some path
  | _ => none

/-- The arguments of groups, one behind the other. -/
def join (groups : List Group) : List String := groups.flatMap words

@[simp] theorem join_nil : join [] = [] := rfl

@[simp] theorem join_cons (g : Group) (groups : List Group) :
    join (g :: groups) = g.words ++ join groups := rfl

@[simp] theorem join_append (groups groups' : List Group) :
    join (groups ++ groups') = join groups ++ join groups' := List.flatMap_append

end Group

open SqlScript.Command.Group

/-- Groups that may stand in a row: the input is given once at most. -/
structure Row (groups : List Group) : Prop where
  valid : ∀ g ∈ groups, g.Valid
  once : (groups.filterMap input?).length ≤ 1

/-- Of each option the last value, or what holds where it is not given. -/
def Options.ofGroups (groups : List Group) : Options where
  input := (groups.filterMap input?).getLast?
  label := (groups.filterMap label?).getLast?
  output := (groups.filterMap output?).getLast?.getD "out.ast"
  inlineLimit := (groups.filterMap limit?).getLast?.getD 10000

/-- Arguments that do not begin with a group which may stand there, and what comes of them: nothing
where help is asked for, and otherwise a message. Whether the input has been given is `given`. -/
inductive Breaks (given : Prop) : List String → Except String (Option Options) → Prop
  | help {arg rest} (h : arg = "-h" ∨ arg = "--help") : Breaks given (arg :: rest) (.ok none)
  | noLabel : Breaks given ["--name"] (.error "--name requires a value")
  | noOutput : Breaks given ["--out"] (.error "--out requires a path")
  | noLimit : Breaks given ["--inline-limit"] (.error "--inline-limit requires a number")
  | badLimit {text rest} (h : ¬ ∃ n, IsLimit text n) :
      Breaks given ("--inline-limit" :: text :: rest) (.error ("invalid --inline-limit: " ++ text))
  | unknown {arg rest} (h : "--".toList <+: arg.toList)
      (hunknown : arg ∉ ["--help", "--name", "--out", "--inline-limit"]) :
      Breaks given (arg :: rest) (.error ("unknown option " ++ arg))
  | again {path rest} (hgiven : given) (h : (input path).Valid) :
      Breaks given (path :: rest) (.error "only one input file may be given")

/-! ## Limits -/

theorem readLimit?_eq_some_iff {text : String} {n : Nat} :
    readLimit? text = some n ↔ IsLimit text n := by
  have hread : ∀ digits : List Char,
      (if digits ≠ [] ∧ digits.all Char.isDigit = true then
        if digitsValue digits < 18446744073709551616 then some (digitsValue digits) else none
      else none) = some n ↔
      digits ≠ [] ∧ (∀ c ∈ digits, c.isDigit = true) ∧ digitsValue digits = n ∧
        n < UInt64.size := by
    intro digits
    rw [Option.ite_none_right_eq_some, Option.ite_none_right_eq_some, List.all_eq_true]
    constructor
    · rintro ⟨⟨hne, hdigits⟩, hlt, ⟨⟩⟩
      exact ⟨hne, hdigits, rfl, hlt⟩
    · rintro ⟨hne, hdigits, rfl, hlt⟩
      exact ⟨⟨hne, hdigits⟩, hlt, rfl⟩
  rw [readLimit?, IsLimit]
  split
  · next rest htext =>
    -- the sign is no digit, so the text is not digits alone
    rw [htext]
    refine (hread rest).trans ⟨fun h => ⟨rest, .inr rfl, h⟩, ?_⟩
    rintro ⟨digits, rfl | heq, hdigits⟩
    · exact absurd (hdigits.2.1 '+' List.mem_cons_self) (by decide)
    · cases heq
      exact hdigits
  · next hplain =>
    refine (hread text.toList).trans ⟨fun h => ⟨_, .inl rfl, h⟩, ?_⟩
    rintro ⟨digits, rfl | heq, hdigits⟩
    · exact hdigits
    · exact (hplain digits heq).elim

theorem IsLimit.unique {text : String} {n n' : Nat} (h : IsLimit text n) (h' : IsLimit text n') :
    n = n' := by
  rw [← readLimit?_eq_some_iff] at h h'
  exact Option.some.inj (h.symm.trans h')

/-! ## Reading a row of groups -/

section Read

variable {o : Options} {g h : Group} {groups : List Group} {rest : List String}

/-- What a group changes. -/
def Group.apply (o : Options) : Group → Except OptionError Options
  | label text => .ok { o with label := text }
  | output path => .ok { o with output := path }
  | limit _ n => .ok { o with inlineLimit := n }
  | input path => if o.input.isSome then .error .secondInput else .ok { o with input := path }

/-- A path is none of the options. -/
theorem Options.read_path {path : String} (hpath : (Group.input path).Valid) :
    o.read (path :: rest) =
      if o.input.isSome then .error .secondInput else { o with input := path }.read rest := by
  obtain ⟨hhelp, hdash⟩ := hpath
  have hflag : ∀ flag : String, "--".toList <+: flag.toList → path ≠ flag := by
    rintro flag hstart rfl
    exact hdash hstart
  have hstart : ¬ path.startsWith "--" = true := fun h => hdash (String.startsWith_string_iff.mp h)
  rw [Options.read.eq_def]
  simp only [hhelp, hflag "--help" (by decide), hflag "--name" (by decide),
    hflag "--out" (by decide), hflag "--inline-limit" (by decide), hstart, or_self,
    if_false, Bool.false_eq_true]

theorem Options.read_group (hg : g.Valid) :
    o.read (g.words ++ rest) = g.apply o >>= (·.read rest) := by
  cases g with
  | label text => simp [words, Options.read, Group.apply, bind, Except.bind]
  | output path => simp [words, Options.read, Group.apply, bind, Except.bind]
  | limit text n =>
    have hlimit : readLimit? text = some n := readLimit?_eq_some_iff.mpr hg
    simp [words, Options.read, Group.apply, hlimit, bind, Except.bind]
  | input path =>
    rw [words, List.singleton_append, read_path hg, Group.apply]
    split <;> rfl

theorem Options.read_join (hgroups : ∀ g ∈ groups, g.Valid) :
    o.read (join groups ++ rest) = groups.foldlM Group.apply o >>= (·.read rest) := by
  induction groups generalizing o with
  | nil => rfl
  | cons g groups ih =>
    obtain ⟨hg, hgroups⟩ := List.forall_mem_cons.mp hgroups
    rw [join_cons, List.append_assoc, read_group hg, List.foldlM_cons, bind_assoc]
    exact congrArg _ (funext fun o => ih hgroups)

/-- Groups about different settings do not get in each other's way. -/
theorem Group.apply_comm (hne : g.setting ≠ h.setting) :
    (g.apply o >>= h.apply) = h.apply o >>= g.apply := by
  -- every setting is a field of its own, and an input that is not the first fails in either order
  obtain ⟨_ | path, label, output, inlineLimit⟩ := o <;> cases g <;> cases h <;>
    first
    | exact absurd rfl hne
    | rfl

/-- A row of groups sets every option to the last value that it gives. -/
theorem Row.foldlM_apply (hrow : Row groups) :
    groups.foldlM Group.apply {} = .ok (Options.ofGroups groups) := by
  induction groups using List.reverseRecOn with
  | nil => rfl
  | append_singleton groups g ih =>
    obtain ⟨hvalid, honce⟩ := hrow
    rw [List.filterMap_append, List.length_append] at honce
    have hbefore : groups.foldlM Group.apply {} = .ok (Options.ofGroups groups) :=
      ih ⟨fun x hx => hvalid x (List.mem_append_left _ hx), by omega⟩
    rw [List.foldlM_append, hbefore]
    cases g with
    | input path =>
      have hnone : groups.filterMap input? = [] := List.eq_nil_of_length_eq_zero (by
        simpa [input?] using honce)
      simp [Options.ofGroups, Group.apply, hnone, input?, label?, output?, limit?, bind, pure,
        Except.bind, Except.pure]
    | _ =>
      simp [Options.ofGroups, Group.apply, input?, label?, output?, limit?, bind, pure, Except.bind,
        Except.pure]

theorem Row.read_eq (hrow : Row groups) :
    Options.ofArgs (join groups ++ rest) = (Options.ofGroups groups).read rest := by
  rw [Options.ofArgs, Options.read_join hrow.valid, hrow.foldlM_apply]
  rfl

theorem isSome_input_ofGroups (h : ∃ path, Group.input path ∈ groups) :
    (Options.ofGroups groups).input.isSome = true := by
  obtain ⟨path, hpath⟩ := h
  have hmem : path ∈ groups.filterMap input? := List.mem_filterMap.mpr ⟨_, hpath, rfl⟩
  exact Option.isSome_iff_ne_none.mpr fun hnone =>
    List.ne_nil_of_mem hmem (List.getLast?_eq_none_iff.mp hnone)

end Read

/-! ## Where a row ends -/

section Breaks

variable {o : Options} {given : Prop} {args rest : List String}
  {outcome : Except String (Option Options)}

theorem Breaks.ne_options (h : Breaks given rest outcome) : outcome ≠ .ok (some o) := by
  cases h <;> nofun

theorem Breaks.read_eq (h : Breaks given rest outcome) (hgiven : given → o.input.isSome = true) :
    (o.read rest).mapError OptionError.message = outcome := by
  cases h with
  | help h =>
    rw [Options.read.eq_def]
    simp only [if_pos h]
    rfl
  | noLabel =>
    rw [Options.read.eq_def]
    rfl
  | noOutput =>
    rw [Options.read.eq_def]
    rfl
  | noLimit =>
    rw [Options.read.eq_def]
    rfl
  | @badLimit text rest h =>
    have hnone : readLimit? text = none := Option.eq_none_iff_forall_ne_some.mpr fun n hn =>
      h ⟨n, readLimit?_eq_some_iff.mp hn⟩
    have hread : o.read ("--inline-limit" :: text :: rest) = .error (.invalidLimit text) := by
      simp [Options.read, hnone]
    rw [hread]
    rfl
  | @unknown arg rest h hunknown =>
    have hhelp : arg ≠ "-h" := by
      rintro rfl
      exact absurd h (by decide)
    have hstart : arg.startsWith "--" = true := String.startsWith_string_iff.mpr h
    simp only [List.mem_cons, List.not_mem_nil, or_false, not_or] at hunknown
    rw [Options.read.eq_def]
    simp only [hunknown, hhelp, hstart, or_self, if_false, if_true]
    rfl
  | again hpath h =>
    rw [Options.read_path h, if_pos (hgiven hpath)]
    rfl

/-- Arguments go on with a group, unless there are none or no group may stand there. -/
theorem exists_group (given : Prop) (args : List String) :
    args = [] ∨ (∃ outcome, Breaks given args outcome) ∨
      ∃ (g : Group) (rest : List String), g.Valid ∧ args = g.words ++ rest ∧
        (g.input?.isSome = true → ¬ given) := by
  match args with
  | [] => exact .inl rfl
  | arg :: rest =>
    right
    by_cases hhelp : arg = "-h" ∨ arg = "--help"
    · exact .inl ⟨_, .help hhelp⟩
    rw [not_or] at hhelp
    by_cases hdash : "--".toList <+: arg.toList
    · by_cases hknown : arg ∈ ["--help", "--name", "--out", "--inline-limit"]
      · simp only [List.mem_cons, hhelp.2, List.not_mem_nil, or_false, false_or] at hknown
        rcases hknown with rfl | rfl | rfl
        · match rest with
          | [] => exact .inl ⟨_, .noLabel⟩
          | text :: rest => exact .inr ⟨label text, rest, trivial, rfl, nofun⟩
        · match rest with
          | [] => exact .inl ⟨_, .noOutput⟩
          | path :: rest => exact .inr ⟨output path, rest, trivial, rfl, nofun⟩
        · match rest with
          | [] => exact .inl ⟨_, .noLimit⟩
          | text :: rest =>
            by_cases hlimit : ∃ n, IsLimit text n
            · obtain ⟨n, hn⟩ := hlimit
              exact .inr ⟨limit text n, rest, hn, rfl, nofun⟩
            · exact .inl ⟨_, .badLimit hlimit⟩
      · exact .inl ⟨_, .unknown hdash hknown⟩
    · have hpath : (input arg).Valid := ⟨hhelp.1, hdash⟩
      by_cases hgiven : given
      · exact .inl ⟨_, .again hgiven hpath⟩
      · exact .inr ⟨input arg, rest, hpath, rfl, fun _ => hgiven⟩

theorem Row.append_singleton {groups : List Group} {g : Group} (hrow : Row groups) (hg : g.Valid)
    (honce : g.input?.isSome = true → ¬ ∃ path, input path ∈ groups) : Row (groups ++ [g]) := by
  refine ⟨fun x hx => ?_, ?_⟩
  · rcases List.mem_append.mp hx with hx | hx
    · exact hrow.valid x hx
    · exact List.mem_singleton.mp hx ▸ hg
  · cases hinput : g.input? with
    | none => simpa [List.filterMap_append, hinput] using hrow.once
    | some path =>
      have hnone : groups.filterMap input? = [] := List.filterMap_eq_nil_iff.mpr fun x hx => by
        cases x with
        | input path => exact (honce (by rw [hinput]; rfl) ⟨path, hx⟩).elim
        | _ => rfl
      simp [List.filterMap_append, hnone, hinput]

/-- A row of groups can be taken off the front until nothing is left or no group may follow. -/
theorem exists_row (args : List String) {before : List Group} (hbefore : Row before) :
    ∃ groups rest, Row (before ++ groups) ∧ args = join groups ++ rest ∧
      (rest = [] ∨ ∃ outcome, Breaks (∃ path, input path ∈ before ++ groups) rest outcome) := by
  rcases exists_group (∃ path, input path ∈ before) args with
    rfl | hbreaks | ⟨g, rest, hg, rfl, honce⟩
  · exact ⟨[], [], by rwa [List.append_nil], rfl, .inl rfl⟩
  · exact ⟨[], args, by rwa [List.append_nil], rfl, .inr (by rwa [List.append_nil])⟩
  · have hshorter : rest.length < (g.words ++ rest).length := by
      cases g <;> simp only [words, List.length_append, List.length_cons] <;> omega
    obtain ⟨groups, rest', hrow, rfl, hrest⟩ := exists_row rest (hbefore.append_singleton hg honce)
    rw [List.append_assoc, List.singleton_append] at hrow hrest
    exact ⟨g :: groups, rest', hrow, by rw [join_cons, List.append_assoc], hrest⟩
termination_by args.length

end Breaks

/-! ## The language -/

/-- One group is never the beginning of another. -/
theorem Group.words_append_inj {g h : Group} {rest rest' : List String} (hg : g.Valid)
    (hh : h.Valid) (heq : g.words ++ rest = h.words ++ rest') : g = h ∧ rest = rest' := by
  have hname : ¬ (input "--name").Valid := fun hvalid => hvalid.2 (by decide)
  have hout : ¬ (input "--out").Valid := fun hvalid => hvalid.2 (by decide)
  have hlimit : ¬ (input "--inline-limit").Valid := fun hvalid => hvalid.2 (by decide)
  cases g with
  | limit text n =>
    cases h with
    | limit text' n' =>
      simp only [words, List.cons_append, List.nil_append, List.cons.injEq, true_and] at heq
      obtain ⟨rfl, rfl⟩ := heq
      exact ⟨by rw [hg.unique hh], rfl⟩
    | _ => simp_all [words]
  | _ => cases h <;> simp_all [words]

theorem join_injective {groups groups' : List Group} (hvalid : ∀ g ∈ groups, g.Valid)
    (hvalid' : ∀ g ∈ groups', g.Valid) (heq : join groups = join groups') : groups = groups' := by
  have hne : ∀ (g : Group) (rest : List Group), join (g :: rest) ≠ [] := fun g rest => by
    cases g <;> simp [words]
  induction groups generalizing groups' with
  | nil =>
    cases groups' with
    | nil => rfl
    | cons h groups' => exact (hne h groups' heq.symm).elim
  | cons g groups ih =>
    cases groups' with
    | nil => exact (hne g groups heq).elim
    | cons h groups' =>
      obtain ⟨hg, hvalid⟩ := List.forall_mem_cons.mp hvalid
      obtain ⟨hh, hvalid'⟩ := List.forall_mem_cons.mp hvalid'
      obtain ⟨hsame, hrest⟩ := words_append_inj hg hh heq
      exact congrArg₂ List.cons hsame (ih hvalid hvalid' hrest)

/-- Options come out exactly if the arguments are a row of groups. Then there is only one such row,
every option has the last value it is given there, or its default, and two neighbours about
different settings might as well stand the other way round. Otherwise what stands behind the longest
row of groups decides, whatever follows that: the usage, or a message. -/
theorem Options.ofArgs_exact (args : List String) :
    (∀ o, ofArgs args = .ok (some o) ↔
      ∃ groups, Row groups ∧ args = join groups ∧ o = .ofGroups groups) ∧
    (∀ groups groups', Row groups → Row groups' → args = join groups → args = join groups' →
      groups = groups') ∧
    (∀ before g h rest, (∀ x ∈ before ++ [g, h], x.Valid) → g.setting ≠ h.setting →
      args = join (before ++ [g, h]) ++ rest →
        ofArgs (join (before ++ [h, g]) ++ rest) = ofArgs args) ∧
    ((¬ ∃ groups, Row groups ∧ args = join groups) → ∃ groups rest outcome, Row groups ∧
      args = join groups ++ rest ∧ Breaks (∃ path, Group.input path ∈ groups) rest outcome) ∧
    ∀ groups rest outcome, Row groups → args = join groups ++ rest →
      Breaks (∃ path, Group.input path ∈ groups) rest outcome →
        (ofArgs args).mapError OptionError.message = outcome := by
  have hbroken : ∀ groups rest outcome, Row groups → args = join groups ++ rest →
      Breaks (∃ path, Group.input path ∈ groups) rest outcome →
        (ofArgs args).mapError OptionError.message = outcome := by
    rintro groups rest outcome hrow rfl hbreaks
    rw [hrow.read_eq]
    exact hbreaks.read_eq isSome_input_ofGroups
  have hwhole : ∀ groups, Row groups → args = join groups →
      ofArgs args = .ok (some (.ofGroups groups)) := by
    rintro groups hrow rfl
    have hread : ofArgs (join groups ++ []) = (Options.ofGroups groups).read [] := hrow.read_eq
    rwa [List.append_nil] at hread
  have hempty : Row [] := ⟨by simp, by simp⟩
  obtain ⟨groups, rest, hrow, hargs, hrest⟩ := exists_row args hempty
  rw [List.nil_append] at hrow hrest
  refine ⟨fun o => ⟨fun ho => ?_, ?_⟩, ?_, ?_, fun hnone => ?_, hbroken⟩
  · rcases hrest with rfl | ⟨outcome, hbreaks⟩
    · rw [List.append_nil] at hargs
      refine ⟨groups, hrow, hargs, ?_⟩
      rw [hwhole groups hrow hargs] at ho
      cases ho
      rfl
    · have houtcome := hbroken groups rest outcome hrow hargs hbreaks
      rw [ho] at houtcome
      exact (hbreaks.ne_options houtcome.symm).elim
  · rintro ⟨groups, hrow, hargs, rfl⟩
    exact hwhole groups hrow hargs
  · rintro groups groups' hrow hrow' rfl heq
    exact join_injective hrow.valid hrow'.valid heq
  · rintro before g h rest hvalid hne rfl
    have hswapped : ∀ x ∈ before ++ [h, g], x.Valid := fun x hx => hvalid x (by
      simpa [or_comm (a := x = h)] using hx)
    have hboth : ∀ o, [h, g].foldlM Group.apply o = [g, h].foldlM Group.apply o := fun o => by
      simp only [List.foldlM_cons, List.foldlM_nil, bind_pure]
      exact Group.apply_comm hne.symm
    rw [ofArgs, ofArgs, read_join hvalid, read_join hswapped, List.foldlM_append,
      List.foldlM_append, funext hboth]
  · rcases hrest with rfl | ⟨outcome, hbreaks⟩
    · rw [List.append_nil] at hargs
      exact (hnone ⟨groups, hrow, hargs⟩).elim
    · exact ⟨groups, rest, outcome, hrow, hargs, hbreaks⟩

end SqlScript.Command
