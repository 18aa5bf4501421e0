import Purgery.Shell.Tokens

namespace Purgery.Client

open Purgery.Shell

/-! The command lines that ssh hands to the remote shell. -/

def escapeChar (c : Char) : List Char := if c = '\'' then ['\'', '\\', '\'', '\''] else [c]

def shellEscape (s : String) : String := "'" ++ String.ofList (s.toList.flatMap escapeChar) ++ "'"

/-- A program and its arguments, each of them escaped. -/
def remoteCommand (program : String) (args : List String) : String :=
  args.foldl (fun command a => command ++ " " ++ shellEscape a) program

/-- What `server_cmd_raw` has ssh run. -/
def serverCmdRaw (serverCmd : String) (args : List String) : String := remoteCommand serverCmd args

/-- What `spawn_server_cmd` has ssh run. -/
def spawnServerCmd (serverCmd : String) (args : List String) : String :=
  remoteCommand serverCmd args

def buildRemoteCommand (program : String) (args : List String) : String :=
  remoteCommand program args

/-- What `write_remote_file` has ssh run. -/
def writeRemoteFile (path : String) : String := "cat > " ++ shellEscape path

theorem toList_shellEscape (s : String) :
    (shellEscape s).toList =
      '\'' :: s.toList.flatMap escapeChar ++ ['\''] := by
  simp [shellEscape]

/-- The shell reads an escaped string as one word, or as the end of one. -/
theorem scan_shellEscape (s : String) (current : Option Word) (rest : List Char) :
    scan (.plain current) ((shellEscape s).toList ++ rest) =
      scan (.plain (extend current (s.toList.map fun c => (c, true)))) rest := by
  have hbody : ∀ (cs : List Char) (w : Word),
      scan (.quoted w) (cs.flatMap escapeChar ++ '\'' :: rest) =
      scan (.plain (some (w ++ cs.map fun c => (c, true)))) rest := by
    intro cs
    induction cs with
    | nil => simp [scan]
    | cons c cs ih =>
      intro w
      by_cases hc : c = '\''
      · subst hc
        have hstep := ih (w ++ [('\'', true)])
        simpa [escapeChar, scan, extend] using hstep
      · have hstep := ih (w ++ [(c, true)])
        simpa [escapeChar, scan, hc] using hstep
  have hscan := hbody s.toList (current.getD [])
  rw [toList_shellEscape]
  simpa [scan, extend] using hscan

theorem toList_remoteCommand (program : String) (args : List String) :
    (remoteCommand program args).toList =
      program.toList ++ args.flatMap fun a => ' ' :: (shellEscape a).toList := by
  unfold remoteCommand
  induction args generalizing program with
  | nil => simp
  | cons a args ih =>
    rw [List.foldl_cons, ih]
    simp

/-- The arguments after the program. -/
theorem scan_args (args : List String) (current : Option Word) :
    scan (.plain current) (args.flatMap fun a => ' ' :: (shellEscape a).toList) =
      some (flush current ++ args.map fun a => Token.quoted a.toList) := by
  induction args generalizing current with
  | nil => simp [scan]
  | cons a args ih =>
    have hrest := ih (extend none (a.toList.map fun c => (c, true)))
    rw [List.flatMap_cons, List.cons_append, scan_blank rfl, scan_shellEscape, hrest]
    simp [flush, extend, Token.quoted]

/-- A server command: plain words with blanks between them, none of which
begins a comment. -/
structure PlainCommand (program : String) : Prop where
  chars : ∀ c ∈ program.toList, bareChar c = true ∨ blank c = true
  words : ∀ w ∈ bareWords none program.toList, w.head? ≠ some '#'

theorem tokens_remoteCommand {program : String} (h : PlainCommand program) (args : List String) :
    tokens (remoteCommand program args).toList =
      some ((bareWords none program.toList).map Token.bare ++
        args.map fun a => Token.quoted a.toList) := by
  have hends : EndsWord (args.flatMap fun a => ' ' :: (shellEscape a).toList) := by
    cases args with
    | nil => exact endsWord_nil
    | cons a args => exact endsWord_blank
  have hargs : tokens (args.flatMap fun a => ' ' :: (shellEscape a).toList) =
      some (args.map fun a => Token.quoted a.toList) := scan_args args none
  have hwords := scan_words h.chars hends none h.words
  rw [hargs] at hwords
  rw [toList_remoteCommand]
  exact hwords

theorem tokens_writeRemoteFile (path : String) :
    tokens (writeRemoteFile path).toList =
      some [Token.bare "cat".toList, .operator '>', Token.quoted path.toList] := by
  have hpath : scan (.plain none) (shellEscape path).toList = some [Token.quoted path.toList] := by
    have hscan := scan_shellEscape path none []
    rw [List.append_nil] at hscan
    rw [hscan]
    simp [scan, flush, extend, Token.quoted]
  have hcat : (writeRemoteFile path).toList =
      ['c', 'a', 't', ' ', '>', ' '] ++ (shellEscape path).toList := by simp [writeRemoteFile]
  rw [hcat, tokens]
  simp [scan, flush, extend, hpath, blank, operatorChar, expands, Token.bare]

/-- The remote shell reads the words of the server command and then exactly the
arguments, with every character of them quoted, and a written file is the
target of the one redirection. -/
theorem remote_arguments (program : String) (h : PlainCommand program) (args : List String)
    (path : String) :
    (∀ command ∈ [serverCmdRaw program args, spawnServerCmd program args,
        buildRemoteCommand program args],
      tokens command.toList =
        some ((bareWords none program.toList).map Token.bare ++
          args.map fun a => Token.quoted a.toList)) ∧
      tokens (writeRemoteFile path).toList =
        some [Token.bare "cat".toList, .operator '>', Token.quoted path.toList] := by
  refine ⟨fun command hcommand => ?_, tokens_writeRemoteFile path⟩
  have heq : command = remoteCommand program args := by
    simpa [serverCmdRaw, spawnServerCmd, buildRemoteCommand] using hcommand
  rw [heq]
  exact tokens_remoteCommand h args

theorem remote_arguments_finish :
    tokens (serverCmdRaw "env purgery-server" ["finish-run", "it's; rm -rf /"]).toList =
      some [Token.bare "env".toList, Token.bare "purgery-server".toList,
        Token.quoted "finish-run".toList, Token.quoted "it's; rm -rf /".toList] := by
  have hchars : ("env purgery-server".toList.all fun c => bareChar c || blank c) = true := by
    decide
  have hplain : PlainCommand "env purgery-server" :=
    ⟨fun c hc => by simpa using List.all_eq_true.1 hchars c hc, by decide⟩
  exact (remote_arguments "env purgery-server" hplain ["finish-run", "it's; rm -rf /"] "").1 _
    List.mem_cons_self

end Purgery.Client
