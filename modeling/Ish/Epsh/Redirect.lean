import Ish.Epsh.Expand

/-!
# Redirections in evaluation

What the evaluator does with redirections: `setup_redirections`,
`finish_redirections` and `finish_saved_redirections` of
`crates/epsh/src/redirect.rs`, with the descriptor table outside. A saved
descriptor is its number; the copies belong to the table.
-/

namespace Ish.Epsh

open Ish.Lib

variable {W : Type}

/-- `PathBuf::join` -/
def joinPath (base path : ShellBytes) : ShellBytes :=
  if path.head? = some 0x2F then path
  else if base.getLast? = some 0x2F then base ++ path
  else base ++ 0x2F :: path

def isHereDoc : RedirKind → Bool
  | .HereDoc _ | .HereDocStrip _ => true
  | _ => false

def isWritable : RedirKind → Bool
  | .Output _ | .Clobber _ | .Append _ | .ReadWrite _ => true
  | _ => false

/-- `preflight_redirects` -/
def preflightRedirects (out : Outside W) (redirs : List Redir) : ShellM W Unit :=
  match out.host.redirect_open_handler with
  | some handler =>
    if redirs.any fun redir => isWritable redir.kind then checkCallback handler .RedirectOpen
    else return ()
  | none => return ()

/-- `ensure_terminal_descriptor` -/
def ensureTerminalDescriptor (out : Outside W) : ShellM W Unit := do
  let sh ← getShell
  if sh.opts.interactive && !sh.in_forked_child then outsideIo (out.descriptor .terminal)

def cleanupFailure (primary : ShellError) (cleanup : IoError) : ShellError :=
  .Io {
    kind := match primary with
      | .Io e => e.kind
      | _ => .Other
    message := primary.display ++ "; cleanup failed: ".toList ++ cleanup.message }

/-- `combine_redirection_cleanup`: control flow outlives a failing cleanup. -/
def combineRedirectionCleanup {α : Type} (out : Outside W) (primary : Except ShellError α)
    (cleanup : Except IoError Unit) : ShellM W α :=
  match primary, cleanup with
  | primary, .ok () => Process.ofExcept primary
  | .ok _, .error cleanup => Process.fail (.Io cleanup)
  | .error e, .error cleanup =>
    if e.outlivesCleanup then do
      errMsg out ("epsh: ".toList ++ cleanup.message)
      Process.fail e
    else Process.fail (cleanupFailure e cleanup)

def finishRedirections {α : Type} (out : Outside W) (primary : Except ShellError α)
    (saved : List Int) : ShellM W α := do
  let cleanup ← outside (out.descriptor (.restore saved))
  combineRedirectionCleanup out primary cleanup

/-- After `exec` the redirections stay; only the copies are closed. -/
def finishSavedRedirections {α : Type} (out : Outside W) (primary : Except ShellError α)
    (saved : List Int) : ShellM W α := do
  let cleanup ← outside (out.descriptor (.keep saved))
  combineRedirectionCleanup out primary cleanup

/-- `open_writable_redirection`: the handler may leave the open to the shell. -/
def openWritable (out : Outside W) (path : ShellBytes) (mode : RedirectOpenMode)
    (target : Int) : ShellM W Unit := do
  match out.host.redirect_open_handler with
  | some handler => do
    checkCallback handler .RedirectOpen
    match ← outside (handler.callback path mode target) with
    | some (.ok ()) => return ()
    | some (.error e) => Process.fail (.Io e)
    | none => outsideIo (out.descriptor (.openOutput path mode))
  | none => outsideIo (out.descriptor (.openOutput path mode))

section

variable (out : Outside W) (subst : Command → ShellM W Text) (n : Nat)

/-- Open a named file on a descriptor; a failing open is reported. -/
def redirectFile (word : Word) (fd : Int) (openPath : ShellBytes → ShellM W Unit) :
    ShellM W Unit := do
  let filename ← expandString out subst n word
  match ← Process.attempt (openPath (joinPath (← getShell).cwd (strToBytes filename))) with
  | .ok () => outsideIo (out.descriptor (.install fd))
  | .error e => do
    errMsg out (filename ++ ": ".toList ++ e.display)
    Process.fail e

/-- `<&word` and `>&word` -/
def redirectDup (word : Word) (redir : Redir) : ShellM W Unit := do
  let fd_str ← expandString out subst n word
  if fd_str = ['-'] then outsideIo (out.descriptor (.close redir.fd))
  else
    match parseI32 fd_str with
    | some source_fd => outsideIo (out.descriptor (.duplicate source_fd redir.fd))
    | none => Process.fail (.Runtime (fd_str ++ ": bad file descriptor".toList) redir.span)

def redirectHereDoc (body : HereDocBody) (redir : Redir) : ShellM W Unit := do
  let expanded ← match body with
    | .Literal s => pure s
    | .Parsed parts => do pure (strToBytes (← expandString out subst n ⟨parts⟩))
  outsideIo (out.descriptor (.hereDoc expanded redir.fd))

/-- One round of `apply_redirections`, after the target is saved. -/
def applyRedirection (redir : Redir) : ShellM W Unit :=
  match redir.kind with
  | .Input word => redirectFile out subst n word redir.fd fun path =>
    outsideIo (out.descriptor (.openInput path))
  | .Output word | .Clobber word => redirectFile out subst n word redir.fd fun path =>
    openWritable out path .Truncate redir.fd
  | .Append word => redirectFile out subst n word redir.fd fun path =>
    openWritable out path .Append redir.fd
  | .ReadWrite word => redirectFile out subst n word redir.fd fun path =>
    openWritable out path .ReadWrite redir.fd
  | .DupInput word | .DupOutput word => redirectDup out subst n word redir
  | .HereDoc body | .HereDocStrip body => redirectHereDoc out subst n body redir

/-- The descriptors saved, and how the redirections ended. -/
def applyRedirections : List Redir → List Int → ShellM W (List Int × Except ShellError Unit)
  | [], saved => return (saved, .ok ())
  | redir :: redirs, saved => do
    record (.redirects redir.fd)
    match ← outside (out.descriptor (.save redir.fd (isHereDoc redir.kind))) with
    | .error e => return (saved, .error (.Io e))
    | .ok () =>
      match ← Process.attempt (applyRedirection out subst n redir) with
      | .ok () => applyRedirections redirs (saved ++ [redir.fd])
      | .error e => return (saved ++ [redir.fd], .error e)

def noRoom : ShellError :=
  .Io ⟨.InvalidInput, "redirection descriptor leaves no room for saved descriptors".toList⟩

def setupRedirections (redirs : List Redir) : ShellM W (List Int) := do
  preflightRedirects out redirs
  ensureTerminalDescriptor out
  if redirs.any fun redir => decide (2 ^ 31 - 1 ≤ redir.fd) then Process.fail noRoom
  let (saved, result) ← applyRedirections out subst n redirs []
  match result with
  | .ok () => return saved
  | .error e => finishRedirections out (.error e) saved

end

end Ish.Epsh
