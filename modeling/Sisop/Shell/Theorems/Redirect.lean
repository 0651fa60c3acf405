import Sisop.Shell.Theorems.Environ

namespace Shell

def redirs (s : List Char) : List Redir := (tokens s).filterMap redirOf

namespace Redir

def inputFile : Redir → Option (List Char)
  | input f => some f
  | _       => none

def outputFile : Redir → Option (List Char)
  | output f => some f
  | _        => none

-- 2>&1 is here as it stands in the command.
def errorFile : Redir → Option (List Char)
  | error f       => some f
  | errorToOutput => some ['&', '1']
  | _             => none

-- The file that a word creates or truncates.
def createdFile : Redir → Option (List Char)
  | output f => some f
  | error f  => some f
  | _        => none

end Redir

def inputs (rs : List Redir) : List (List Char) := rs.filterMap Redir.inputFile

def outputs (rs : List Redir) : List (List Char) := rs.filterMap Redir.outputFile

def errors (rs : List Redir) : List (List Char) := rs.filterMap Redir.errorFile

def created (rs : List Redir) : List (List Char) := rs.filterMap Redir.createdFile

-- One word, applied to the streams.
def Redir.apply (p : Process) : Redir → Process
  | input f       => { p with stdin := .file 0 f }
  | output f      => { p with stdout := .file 1 f }
  | error f       => { p with stderr := .file 2 f }
  | errorToOutput => { p with stderr := p.stdout }

-- A word that is not a redirection and not taken for an assignment is an argument, also if it has a < or a >.
def isKept (w : List Char) : Bool := !isForm w && (isRedir w || !isEnvironVar w)

def shell (env : Env) : Process := ⟨env, .inherited 0, .inherited 1, .inherited 2, []⟩

-- The program runs with the streams that the words say from left to right, the files are created or truncated,
-- and no other word is lost.
structure Bound (s : List Char) (p : Process) (q : Program) : Prop where
  stdin  : q.process.stdin = ((redirs s).foldl Redir.apply p).stdin
  stdout : q.process.stdout = ((redirs s).foldl Redir.apply p).stdout
  stderr : q.process.stderr = ((redirs s).foldl Redir.apply p).stderr
  files  : ∀ f, (∃ o ∈ q.process.opens, o.name = f ∧ o.trunc ∧ o.creat) ↔ f ∈ created (redirs s)
  argv   : q.argv = ((tokens s).filter isKept).map (expandEnvironVar p.env)

def Redirected (canOpen : List Char → Bool) (env : Env) (s : List Char) : Prop :=
  ∃ e, parseExec env (s ++ [END_STRING]) = some e ∧ ∀ t p, Reaches t (shell env) e p →
    ∃ q, execCmd canOpen e p = some q ∧ Bound s p q

-- The words with a < or a > have one of the forms, what is created is what the last words say, and nothing is
-- created if the last word for the errors is 2>&1. The input can be written, too.
structure Redirectable (canOpen : List Char → Bool) (s : List Char) : Prop where
  forms : ∀ w ∈ tokens s, isRedir w → isForm w
  args  : ((tokens s).filter isArg).length < MAXARGS
  envs  : ((tokens s).filter isEarg).length ≤ MAXARGS
  vars  : redirs s = [] → ∀ w ∈ tokens s, isEarg w → (getEnvironKey w).length < MAXARGS ∧
    (getEnvironValue w (getEnvironKey w).length).length < MAXARGS
  input : ∀ f, (inputs (redirs s)).getLast? = some f → canOpen f
  last  : ∀ f ∈ created (redirs s), (errors (redirs s)).getLast? ≠ some ['&', '1'] ∧
    ((outputs (redirs s)).getLast? = some f ∨ (errors (redirs s)).getLast? = some f)

variable {canOpen : List Char → Bool} {getenv env : Env} {s w : List Char} {ts : List (List Char)}
  {rs : List Redir} {p p' : Process} {e c c' : ExecCmd} {t : Cmd}

section Exec

-- What is opened for the three streams.
def opensIn (e : ExecCmd) : List Open := if e.inFile = [] then [] else [⟨e.inFile, false, false, false⟩]

def opensOut (e : ExecCmd) : List Open :=
  if e.outFile = [] then []
  else [⟨e.outFile, decide (e.errFile ≠ ['&', '1']), decide (e.errFile = ['&', '1']), true⟩]

def opensErr (e : ExecCmd) : List Open :=
  if e.errFile = [] ∨ e.errFile = ['&', '1'] then [] else [⟨e.errFile, true, false, true⟩]

def opensOf (e : ExecCmd) : List Open := opensIn e ++ (opensOut e ++ opensErr e)

def streamIn (e : ExecCmd) (p : Process) : Stream := if e.inFile = [] then p.stdin else .file 0 e.inFile

def streamOut (e : ExecCmd) (p : Process) : Stream :=
  if e.outFile = [] then p.stdout else .file 1 e.outFile

def streamErr (e : ExecCmd) (p : Process) : Stream :=
  if e.errFile = [] then p.stderr
  else if e.errFile = ['&', '1'] then streamOut e p
  else .file 2 e.errFile

theorem redirIn_eq : redirIn canOpen e p = if ∀ o ∈ opensIn e, canOpen o.name then
    some { p with stdin := streamIn e p, opens := p.opens ++ opensIn e } else none := by
  unfold redirIn opensIn streamIn openRedirFd
  by_cases h : e.inFile = []
  · simp [h]
  · by_cases hc : canOpen e.inFile <;> simp [h, hc, List.length_pos_iff]

theorem redirOut_eq : redirOut canOpen e p = if ∀ o ∈ opensOut e, canOpen o.name then
    some { p with stdout := streamOut e p, opens := p.opens ++ opensOut e } else none := by
  unfold redirOut opensOut streamOut openRedirFd
  by_cases h : e.outFile = []
  · simp [h]
  · by_cases hc : canOpen e.outFile <;> simp [h, hc, List.length_pos_iff]

variable (p') in
theorem redirErr_eq (hp : p.stdout = streamOut e p') (hp' : p.stderr = p'.stderr) : redirErr canOpen e p =
    if ∀ o ∈ opensErr e, canOpen o.name then
      some { p with stderr := streamErr e p', opens := p.opens ++ opensErr e } else none := by
  unfold redirErr opensErr streamErr openRedirFd
  by_cases h : e.errFile = []
  · simp [h, ← hp']
  · by_cases h₁ : e.errFile = ['&', '1']
    · simp [h₁, ← hp]
    · by_cases hc : canOpen e.errFile <;> simp [h, h₁, hc, List.length_pos_iff]

-- All of it is done, or the process ends.
theorem caseRedirMd_eq : caseRedirMd canOpen e p = if ∀ o ∈ opensOf e, canOpen o.name then
    some ⟨e.argv, { p with
      stdin := streamIn e p, stdout := streamOut e p, stderr := streamErr e p,
      opens := p.opens ++ opensOf e }⟩ else none := by
  simp only [caseRedirMd, redirIn_eq, opensOf, List.forall_mem_append, Option.bind_eq_bind]
  by_cases h₁ : ∀ o ∈ opensIn e, canOpen o.name
  case neg => rw [if_neg h₁, if_neg fun h => h₁ h.1, Option.bind_none]
  rw [if_pos h₁, Option.bind_some, redirOut_eq]
  by_cases h₂ : ∀ o ∈ opensOut e, canOpen o.name
  case neg => rw [if_neg h₂, if_neg fun h => h₂ h.2.1, Option.bind_none]
  rw [if_pos h₂, Option.bind_some, redirErr_eq p ?out ?err]
  case out => rfl
  case err => rfl
  by_cases h₃ : ∀ o ∈ opensErr e, canOpen o.name
  case neg => rw [if_neg h₃, if_neg fun h => h₃ h.2.2, Option.bind_none]
  rw [if_pos h₃, if_pos ⟨h₁, h₂, h₃⟩]
  simp [caseExecCmd, streamOut]

end Exec

section Words

-- The names in the words of a command are not empty.
def Redir.Named : Redir → Prop
  | input f       => f ≠ []
  | output f      => f ≠ []
  | error f       => f ≠ [] ∧ f ≠ ['&', '1']
  | errorToOutput => True

theorem redirOf_named {r : Redir} (h : redirOf w = some r) : r.Named := by
  have hname {f : List Char} (hf : isName f) : f ≠ [] := by
    simp only [isName, Bool.and_eq_true, decide_eq_true_eq] at hf
    exact hf.1.1
  unfold redirOf at h
  split at h
  · split at h
    case isTrue hf =>
      cases h
      exact hname hf
    case isFalse => cases h
  · split at h
    case isTrue hf =>
      cases h
      exact hname hf
    case isFalse => cases h
  · split at h
    case isTrue =>
      cases h
      trivial
    case isFalse hne =>
      split at h
      case isTrue hf =>
        cases h
        exact ⟨hname hf, hne⟩
      case isFalse => cases h
  · cases h

-- The field of a word
def Redir.put (c : ExecCmd) : Redir → ExecCmd
  | input f       => { c with inFile := f, type := .redir }
  | output f      => { c with outFile := f, type := .redir }
  | error f       => { c with errFile := f, type := .redir }
  | errorToOutput => { c with errFile := ['&', '1'], type := .redir }

theorem parseRedirFlow_form {r : Redir} (h : redirOf w = some r) : parseRedirFlow c w = some (r.put c) := by
  have herr (f : List Char) : blockContains ('2' :: '>' :: f) '>' = some 1 := by
    simp [blockContains, List.findIdx?_cons]
  unfold redirOf at h
  split at h
  · rename_i f
    split at h
    case isTrue hf =>
      cases h
      simp only [isName, Bool.and_eq_true, decide_eq_true_eq] at hf
      have hno : '>' ∉ '<' :: f := by simpa using hf.2
      simp only [parseRedirFlow, blockContains_none hno, blockContains_isSome.mpr List.mem_cons_self,
        if_true]
      rfl
    case isFalse => cases h
  · split at h
    case isTrue hf =>
      cases h
      simp only [parseRedirFlow, blockContains_head]
      rfl
    case isFalse => cases h
  · split at h
    case isTrue hf =>
      cases h
      subst hf
      simp only [parseRedirFlow, herr]
      rfl
    case isFalse hne =>
      split at h
      case isTrue hf =>
        cases h
        simp only [parseRedirFlow, herr]
        rfl
      case isFalse => cases h
  · cases h

-- The fields after the tokens: the last word of each kind.
theorem parseTokens_files (hf : ∀ w ∈ ts, isRedir w → isForm w)
    (h : ts.foldlM (parseToken getenv) c = some c') :
    c'.inFile = (inputs (ts.filterMap redirOf)).getLastD c.inFile ∧
      c'.outFile = (outputs (ts.filterMap redirOf)).getLastD c.outFile ∧
      c'.errFile = (errors (ts.filterMap redirOf)).getLastD c.errFile := by
  induction ts generalizing c
  case nil =>
    cases h
    exact ⟨rfl, rfl, rfl⟩
  case cons w ts ih =>
    rw [List.foldlM_cons, Option.bind_eq_bind, Option.bind_eq_some_iff] at h
    obtain ⟨d, hd, h⟩ := h
    obtain ⟨h₁, h₂, h₃⟩ := ih (fun w hm => hf w (List.mem_cons_of_mem _ hm)) h
    rw [h₁, h₂, h₃]
    cases hr : redirOf w
    case some r =>
      rw [parseToken, parseRedirFlow_form hr] at hd
      cases hd
      rw [List.filterMap_cons_some hr]
      cases r
      case input => exact ⟨List.getLastD_cons.symm, rfl, rfl⟩
      case output => exact ⟨rfl, List.getLastD_cons.symm, rfl⟩
      case error => exact ⟨rfl, rfl, List.getLastD_cons.symm⟩
      case errorToOutput => exact ⟨rfl, rfl, List.getLastD_cons.symm⟩
    case none =>
      have hn : isRedir w = false := by
        by_contra hc
        have hform := hf w List.mem_cons_self (by simpa using hc)
        rw [isForm, hr] at hform
        cases hform
      rw [List.filterMap_cons_none hr]
      rcases parseToken_eq getenv w c with ⟨hi, -⟩ | ⟨-, hx⟩ | ⟨-, hx⟩
      · rw [hn] at hi
        cases hi
      · rw [hx] at hd
        split at hd <;> cases hd
        exact ⟨rfl, rfl, rfl⟩
      · rw [hx] at hd
        split at hd <;> cases hd
        exact ⟨rfl, rfl, rfl⟩

-- What a command is after `parse_exec`, if all its words with a < or a > have one of the forms.
structure Fields (s : List Char) (e : ExecCmd) : Prop where
  inFile  : e.inFile = (inputs (redirs s)).getLastD []
  outFile : e.outFile = (outputs (redirs s)).getLastD []
  errFile : e.errFile = (errors (redirs s)).getLastD []
  type    : e.type = if redirs s = [] then .exec else .redir

theorem parseExec_fields (hs : END_STRING ∉ s) (hf : ∀ w ∈ tokens s, isRedir w → isForm w)
    (he : parseExec getenv (s ++ [END_STRING]) = some e) : Fields s e := by
  have ht := (parseExec_argv hs he).type
  rw [parseExec, cstr_append hs, parseTokens_eq, Option.bind_eq_bind, Option.bind_eq_some_iff] at he
  obtain ⟨c, hc, he⟩ := he
  split at he
  case isFalse => cases he
  case isTrue =>
    cases he
    obtain ⟨h₁, h₂, h₃⟩ := parseTokens_files hf hc
    refine ⟨h₁, h₂, h₃, ?_⟩
    have hany : (tokens s).any isRedir = decide (redirs s ≠ []) := by
      rw [Bool.eq_iff_iff, List.any_eq_true, decide_eq_true_eq, redirs, ne_eq, List.filterMap_eq_nil_iff]
      push Not
      constructor
      · rintro ⟨w, hm, hr⟩
        exact ⟨w, hm, Option.isSome_iff_ne_none.mp (hf w hm hr)⟩
      · rintro ⟨w, hm, hr⟩
        exact ⟨w, hm, isForm_isRedir (Option.isSome_iff_ne_none.mpr hr)⟩
    rw [ht, hany]
    by_cases hr : redirs s = [] <;> simp [hr, execCmdCreate]

theorem redirs_named : ∀ r ∈ redirs s, r.Named := by
  intro r hr
  obtain ⟨w, -, hw⟩ := List.mem_filterMap.mp hr
  exact redirOf_named hw

theorem getLastD_some {l : List (List Char)} {f : List Char} (h : l.getLastD [] = f) (hne : f ≠ []) :
    l.getLast? = some f := by
  rcases List.eq_nil_or_concat l with rfl | ⟨l', x, rfl⟩
  · exact absurd h.symm hne
  · rw [List.concat_eq_append, List.getLastD_concat] at h
    simp [h]

theorem getLastD_of_some {l : List (List Char)} {f : List Char} (h : l.getLast? = some f) :
    l.getLastD [] = f := by
  rw [List.getLastD_eq_getLast?, h]
  rfl

theorem getLastD_map {l : List (List Char)} (g : List Char → Stream) (d : Stream) (hl : [] ∉ l) :
    (if l.getLastD [] = [] then d else g (l.getLastD [])) = (l.map g).getLastD d := by
  rcases List.eq_nil_or_concat l with rfl | ⟨l', x, rfl⟩
  · rfl
  · have hx : x ≠ [] := by
      rintro rfl
      exact hl (by simp)
    simp [hx]

end Words

section Streams

theorem foldl_stdin : (rs.foldl Redir.apply p).stdin = ((inputs rs).map (Stream.file 0)).getLastD p.stdin := by
  induction rs generalizing p
  case nil => rfl
  case cons r rs ih =>
    rw [List.foldl_cons, ih]
    cases r
    case input => exact List.getLastD_cons.symm
    all_goals rfl

theorem foldl_stdout :
    (rs.foldl Redir.apply p).stdout = ((outputs rs).map (Stream.file 1)).getLastD p.stdout := by
  induction rs generalizing p
  case nil => rfl
  case cons r rs ih =>
    rw [List.foldl_cons, ih]
    cases r
    case output => exact List.getLastD_cons.symm
    all_goals rfl

theorem foldl_stderr_none (h : errors rs = []) : (rs.foldl Redir.apply p).stderr = p.stderr := by
  induction rs generalizing p
  case nil => rfl
  case cons r rs ih =>
    cases r
    case input => exact ih h
    case output => exact ih h
    case error => cases h
    case errorToOutput => cases h

-- Behind the last word for the errors there is none.
theorem errors_last {f : List Char} (h : (errors rs).getLast? = some f) :
    ∃ rs₁ r rs₂, rs = rs₁ ++ r :: rs₂ ∧ r.errorFile = some f ∧ errors rs₂ = [] := by
  induction rs
  case nil => cases h
  case cons r rs ih =>
    by_cases hn : errors rs = []
    case pos =>
      refine ⟨[], r, rs, rfl, ?_, hn⟩
      cases hr : r.errorFile
      case none =>
        rw [errors, List.filterMap_cons_none hr, ← errors, hn] at h
        cases h
      case some g =>
        rw [errors, List.filterMap_cons_some hr, ← errors, hn] at h
        exact h
    case neg =>
      have hl : (errors (r :: rs)).getLast? = (errors rs).getLast? := by
        cases hr : r.errorFile
        case none => rw [errors, List.filterMap_cons_none hr, ← errors]
        case some g =>
          obtain ⟨x, xs, hx⟩ := List.exists_cons_of_ne_nil hn
          rw [errors, List.filterMap_cons_some hr, ← errors, hx, List.getLast?_cons_cons]
      obtain ⟨rs₁, r', rs₂, rfl, hr, hn⟩ := ih (hl ▸ h)
      exact ⟨r :: rs₁, r', rs₂, rfl, hr, hn⟩

theorem foldl_stderr_file {f : List Char} (h : (errors rs).getLast? = some f) (hf : f ≠ ['&', '1']) :
    (rs.foldl Redir.apply p).stderr = .file 2 f := by
  obtain ⟨rs₁, r, rs₂, rfl, hr, hn⟩ := errors_last h
  rw [List.foldl_append, List.foldl_cons, foldl_stderr_none hn]
  cases r
  case error =>
    cases hr
    rfl
  case errorToOutput => exact absurd (Option.some.inj hr).symm hf
  all_goals cases hr

-- Without a word for the output, 2>&1 is the output that the process had.
theorem foldl_stderr_out (h : (errors rs).getLast? = some ['&', '1']) (ho : outputs rs = [])
    (hn : ∀ r ∈ rs, r.Named) : (rs.foldl Redir.apply p).stderr = p.stdout := by
  obtain ⟨rs₁, r, rs₂, rfl, hr, hn'⟩ := errors_last h
  have hr' := hn r (List.mem_append_right _ List.mem_cons_self)
  rw [List.foldl_append, List.foldl_cons, foldl_stderr_none hn']
  cases r
  case error => exact absurd (Option.some.inj hr) hr'.2
  case errorToOutput =>
    rw [outputs, List.filterMap_append, List.append_eq_nil_iff] at ho
    show (rs₁.foldl Redir.apply p).stdout = _
    rw [foldl_stdout, outputs, ho.1]
    rfl
  all_goals cases hr

end Streams

section Fields

theorem nil_notMem {g : Redir → Option (List Char)} (hg : ∀ r : Redir, r.Named → g r ≠ some []) :
    [] ∉ (redirs s).filterMap g := by
  intro hm
  obtain ⟨r, hr, he⟩ := List.mem_filterMap.mp hm
  exact hg r (redirs_named r hr) he

theorem inputs_named : [] ∉ inputs (redirs s) := nil_notMem fun r hr he => by
  cases r
  case input => exact hr (Option.some.inj he)
  all_goals cases he

theorem outputs_named : [] ∉ outputs (redirs s) := nil_notMem fun r hr he => by
  cases r
  case output => exact hr (Option.some.inj he)
  all_goals cases he

theorem errors_named : [] ∉ errors (redirs s) := nil_notMem fun r hr he => by
  cases r
  case error => exact hr.1 (Option.some.inj he)
  case errorToOutput => exact absurd (Option.some.inj he) (by decide)
  all_goals cases he

theorem outputs_created {f : List Char} (h : f ∈ outputs rs) : f ∈ created rs := by
  obtain ⟨r, hr, he⟩ := List.mem_filterMap.mp h
  refine List.mem_filterMap.mpr ⟨r, hr, ?_⟩
  cases r
  case output => exact he
  all_goals cases he

theorem errors_created {f : List Char} (h : f ∈ errors rs) (hf : f ≠ ['&', '1']) : f ∈ created rs := by
  obtain ⟨r, hr, he⟩ := List.mem_filterMap.mp h
  refine List.mem_filterMap.mpr ⟨r, hr, ?_⟩
  cases r
  case error => exact he
  case errorToOutput => exact absurd (Option.some.inj he).symm hf
  all_goals cases he

variable (h : Fields s e)
include h

theorem Fields.stdin : streamIn e p = ((redirs s).foldl Redir.apply p).stdin := by
  rw [foldl_stdin, ← getLastD_map _ _ inputs_named, streamIn, h.inFile]

theorem Fields.stdout : streamOut e p = ((redirs s).foldl Redir.apply p).stdout := by
  rw [foldl_stdout, ← getLastD_map _ _ outputs_named, streamOut, h.outFile]

-- If 2>&1 is the last word for the errors and nothing is created, the order does not count.
theorem Fields.stderr (hc : (errors (redirs s)).getLast? = some ['&', '1'] → created (redirs s) = []) :
    streamErr e p = ((redirs s).foldl Redir.apply p).stderr := by
  rw [streamErr]
  by_cases he : e.errFile = []
  case pos =>
    have hn : errors (redirs s) = [] := by
      rcases List.eq_nil_or_concat (errors (redirs s)) with hn | ⟨l, x, hx⟩
      · exact hn
      · have hx' := hx ▸ h.errFile.symm.trans he
        rw [List.concat_eq_append, List.getLastD_concat] at hx'
        subst hx'
        exact absurd (by rw [hx]; simp) errors_named
    rw [if_pos he, foldl_stderr_none hn]
  case neg =>
    have hl := getLastD_some (f := e.errFile) h.errFile.symm he
    rw [if_neg he]
    by_cases h₁ : e.errFile = ['&', '1']
    case pos =>
      rw [h₁] at hl
      have ho : outputs (redirs s) = [] := by
        rw [List.eq_nil_iff_forall_not_mem]
        intro f hf
        have hm := outputs_created hf
        rw [hc hl] at hm
        cases hm
      have hout : e.outFile = [] := by
        rw [h.outFile, ho]
        rfl
      rw [if_pos h₁, foldl_stderr_out hl ho redirs_named, streamOut, if_pos hout]
    case neg => rw [if_neg h₁, foldl_stderr_file hl h₁]

omit h in
theorem last_iff {l : List (List Char)} {x f : List Char} (hx : x = l.getLastD []) (hl : [] ∉ l) :
    l.getLast? = some f ↔ x = f ∧ f ≠ [] := by
  constructor
  case mp =>
    intro hf
    refine ⟨hx.trans (getLastD_of_some hf), ?_⟩
    rintro rfl
    exact hl (List.mem_of_getLast? hf)
  case mpr =>
    rintro ⟨he, hne⟩
    exact getLastD_some (hx ▸ he) hne

-- What the executor creates.
theorem Fields.files {f : List Char} : (∃ o ∈ opensOf e, o.name = f ∧ o.trunc ∧ o.creat) ↔
    (errors (redirs s)).getLast? ≠ some ['&', '1'] ∧
      ((outputs (redirs s)).getLast? = some f ∨ (errors (redirs s)).getLast? = some f) := by
  rw [ne_eq, last_iff h.errFile errors_named, last_iff h.outFile outputs_named,
    last_iff h.errFile errors_named]
  have hin : ∀ o ∈ opensIn e, o.trunc = false := by
    intro o ho
    unfold opensIn at ho
    split at ho
    · cases ho
    · rw [List.mem_singleton.mp ho]
  constructor
  case mp =>
    rintro ⟨o, ho, rfl, htrunc, -⟩
    rcases List.mem_append.mp ho with ho | ho
    · rw [hin o ho] at htrunc
      cases htrunc
    · rcases List.mem_append.mp ho with ho | ho
      · unfold opensOut at ho
        split at ho
        case isTrue => cases ho
        case isFalse hne =>
          rw [List.mem_singleton.mp ho] at htrunc ⊢
          have herr : e.errFile ≠ ['&', '1'] := by simpa using htrunc
          exact ⟨fun hc => herr hc.1, .inl ⟨rfl, hne⟩⟩
      · unfold opensErr at ho
        split at ho
        case isTrue => cases ho
        case isFalse hne =>
          rw [not_or] at hne
          rw [List.mem_singleton.mp ho]
          exact ⟨fun hc => hne.2 hc.1, .inr ⟨rfl, hne.1⟩⟩
  case mpr =>
    rintro ⟨herr, ⟨rfl, hne⟩ | ⟨rfl, hne⟩⟩
    · have herr : e.errFile ≠ ['&', '1'] := fun hc => herr ⟨hc, by decide⟩
      refine ⟨⟨e.outFile, decide (e.errFile ≠ ['&', '1']), decide (e.errFile = ['&', '1']), true⟩,
        List.mem_append_right _ (List.mem_append_left _ ?_), rfl, decide_eq_true herr, rfl⟩
      rw [opensOut, if_neg hne]
      exact List.mem_singleton_self _
    · have herr : e.errFile ≠ ['&', '1'] := fun hc => herr ⟨hc, by decide⟩
      refine ⟨⟨e.errFile, true, false, true⟩, List.mem_append_right _ (List.mem_append_right _ ?_),
        rfl, rfl, rfl⟩
      rw [opensErr, if_neg (not_or.mpr ⟨hne, herr⟩)]
      exact List.mem_singleton_self _

-- All files can be opened if the input can.
theorem Fields.opens (hi : ∀ f, (inputs (redirs s)).getLast? = some f → canOpen f)
    (hc : ∀ f ∈ created (redirs s), canOpen f) : ∀ o ∈ opensOf e, canOpen o.name := by
  intro o ho
  rcases List.mem_append.mp ho with ho | ho
  · unfold opensIn at ho
    split at ho
    case isTrue => cases ho
    case isFalse hne =>
      rw [List.mem_singleton.mp ho]
      exact hi _ ((last_iff h.inFile inputs_named).mpr ⟨rfl, hne⟩)
  · rcases List.mem_append.mp ho with ho | ho
    · unfold opensOut at ho
      split at ho
      case isTrue => cases ho
      case isFalse hne =>
        rw [List.mem_singleton.mp ho]
        have hl := (last_iff h.outFile outputs_named).mpr ⟨rfl, hne⟩
        exact hc _ (outputs_created (List.mem_of_getLast? hl))
    · unfold opensErr at ho
      split at ho
      case isTrue => cases ho
      case isFalse hne =>
        rw [not_or] at hne
        rw [List.mem_singleton.mp ho]
        have hl := (last_iff h.errFile errors_named).mpr ⟨rfl, hne.1⟩
        exact hc _ (errors_created (List.mem_of_getLast? hl) hne.2)

end Fields

theorem isArg_kept (h : isArg w) : isKept w := by
  have hr : isRedir w = false := by
    by_contra hr
    rw [((isRedir_cases w).1 (by simpa using hr)).1] at h
    cases h
  have hf : isForm w = false := by
    by_contra hf
    rw [isForm_isRedir (by simpa using hf)] at hr
    cases hr
  simp only [isArg, hr, Bool.not_false, Bool.true_and] at h
  simp [isKept, hf, h]

theorem kept_isArg (hf : ∀ w ∈ ts, isRedir w → isForm w) : ts.filter isKept = ts.filter isArg := by
  apply List.filter_congr
  intro w hm
  cases hr : isRedir w
  case true => simp [isKept, isArg, hf w hm hr, hr]
  case false =>
    have hn : isForm w = false := by
      by_contra hc
      rw [isForm_isRedir (by simpa using hc)] at hr
      cases hr
    simp [isKept, isArg, hr, hn]

theorem reaches_opens (h : Reaches t p e p') : p'.opens = p.opens := by
  induction h
  case exec => rfl
  case back => rfl
  case left ih => exact ih
  case right ih => exact ih

theorem Redirectable.redirected (hs : END_STRING ∉ s) (hc : ∀ f ∈ created (redirs s), canOpen f)
    (h : Redirectable canOpen s) : Redirected canOpen env s := by
  obtain ⟨e, he⟩ := (parseExec_isSome env [] hs).mpr ⟨h.args, h.envs⟩
  have hf := parseExec_fields hs h.forms he
  have hp := parseExec_argv hs he
  refine ⟨e, he, fun t p ht => ?_⟩
  have henv : p.env = env := reaches_env ht
  have hopens : p.opens = [] := reaches_opens ht
  have hargv : e.argv = ((tokens s).filter isKept).map (expandEnvironVar p.env) := by
    rw [kept_isArg h.forms, henv, hp.argv]
    rfl
  by_cases hr : redirs s = []
  case pos =>
    have htype := hf.type
    rw [if_pos hr] at htype
    have hset : setEnvironVars e.eargv p.env = some (override p.env e.eargv) := by
      have hmem : ∀ w ∈ e.eargv, w ∈ tokens s ∧ isEarg w := by
        intro w hm
        rw [hp.eargv] at hm
        exact List.mem_filter.mp hm
      rw [setEnvironVars_eq fun w hm => isEarg_mem (hmem w hm).2,
        if_pos fun w hm => h.vars hr w (hmem w hm).1 (hmem w hm).2]
    refine ⟨_, by rw [execCmd, htype, hset]; rfl, ?_, ?_, ?_, ?_, hargv⟩
    · rw [hr]
      rfl
    · rw [hr]
      rfl
    · rw [hr]
      rfl
    · intro f
      rw [hr]
      simp [caseExecCmd, hopens, created]
  case neg =>
    have htype := hf.type
    rw [if_neg hr] at htype
    refine ⟨_, by rw [execCmd, htype]; exact caseRedirMd_eq.trans (if_pos (hf.opens h.input hc)),
      hf.stdin, hf.stdout, hf.stderr ?_, ?_, hargv⟩
    · intro hl
      rw [List.eq_nil_iff_forall_not_mem]
      exact fun f hm => (h.last f hm).1 hl
    · intro f
      simp only [hopens, List.nil_append]
      rw [hf.files]
      constructor
      case mp =>
        rintro ⟨hne, ho | hx⟩
        · exact outputs_created (List.mem_of_getLast? ho)
        · refine errors_created (List.mem_of_getLast? hx) ?_
          rintro rfl
          exact hne hx
      case mpr => exact h.last f

theorem execCmd_argv {q : Program} (h : execCmd canOpen e p = some q) : q.argv = e.argv := by
  unfold execCmd at h
  split at h
  · obtain ⟨env, -, rfl⟩ := Option.map_eq_some_iff.mp h
    rfl
  · rw [caseRedirMd_eq] at h
    split at h
    · cases h
      rfl
    · cases h

-- If no argument is lost, no word is dropped.
theorem forms_of_kept {g : List Char → Option (List Char)}
    (h : (ts.filter isArg).map g = (ts.filter isKept).map g) : ∀ w ∈ ts, isRedir w → isForm w := by
  intro w hm hr
  by_contra hn
  rw [Bool.not_eq_true] at hn
  have hk : isKept w := by simp [isKept, hn, hr]
  have ha : ¬isArg w := by simp [isArg, hr]
  have hlt := List.countP_lt_length_iff.mpr ⟨w, List.mem_filter.mpr ⟨hm, hk⟩, by simpa using ha⟩
  have hlen := congrArg List.length h
  rw [List.length_map, List.length_map] at hlen
  have hc : (ts.filter isKept).countP isArg = ts.countP isArg := by
    rw [List.countP_filter]
    apply List.countP_congr
    intro x _
    cases hx : isArg x
    case true => simp [isArg_kept hx]
    case false => simp
  rw [hc, List.countP_eq_length_filter, hlen] at hlt
  exact absurd hlt (Nat.lt_irrefl _)

theorem Redirected.redirectable (hs : END_STRING ∉ s) (h : Redirected canOpen env s) :
    Redirectable canOpen s := by
  obtain ⟨e, he, hall⟩ := h
  obtain ⟨q, hq, hb⟩ := hall (.exec e) (shell env) .exec
  have hp := parseExec_argv hs he
  have hforms : ∀ w ∈ tokens s, isRedir w → isForm w := by
    have hargv := hb.argv
    rw [execCmd_argv hq, hp.argv] at hargv
    exact forms_of_kept hargv
  have hf := parseExec_fields hs hforms he
  have hredir : redirs s ≠ [] → (∀ o ∈ opensOf e, canOpen o.name) ∧ q.process.opens = opensOf e := by
    intro hr
    have htype := hf.type
    rw [if_neg hr] at htype
    rw [execCmd, htype] at hq
    have hq := caseRedirMd_eq.symm.trans hq
    by_cases ho : ∀ o ∈ opensOf e, canOpen o.name
    · rw [if_pos ho] at hq
      cases hq
      exact ⟨ho, List.nil_append _⟩
    · rw [if_neg ho] at hq
      cases hq
  obtain ⟨hargs, henvs⟩ := (parseExec_isSome env [] hs).mp ⟨e, he⟩
  refine ⟨hforms, hargs, henvs, fun hr w hm hw => ?vars, fun f hl => ?input, fun f hm => ?last⟩
  case vars =>
    have htype := hf.type
    rw [if_pos hr] at htype
    rw [execCmd, htype] at hq
    obtain ⟨env', hset, -⟩ := Option.map_eq_some_iff.mp hq
    have hmem : ∀ w ∈ e.eargv, isEarg w := by
      intro w hm
      rw [hp.eargv] at hm
      exact (List.mem_filter.mp hm).2
    rw [setEnvironVars_eq fun w hm => isEarg_mem (hmem w hm)] at hset
    split at hset
    case isTrue hall =>
      refine hall w ?_
      rw [hp.eargv]
      exact List.mem_append_right _ (List.mem_filter.mpr ⟨hm, hw⟩)
    case isFalse => cases hset
  case input =>
    have hr : redirs s ≠ [] := by
      intro hr
      rw [hr] at hl
      cases hl
    obtain ⟨hi, hne⟩ := (last_iff hf.inFile inputs_named).mp hl
    subst hi
    refine (hredir hr).1 ⟨e.inFile, false, false, false⟩ (List.mem_append_left _ ?_)
    rw [opensIn, if_neg hne]
    exact List.mem_singleton_self _
  case last =>
    have hr : redirs s ≠ [] := by
      intro hr
      rw [hr] at hm
      cases hm
    have ho := (hb.files f).mpr hm
    rw [(hredir hr).2] at ho
    exact hf.files.mp ho

end Shell
