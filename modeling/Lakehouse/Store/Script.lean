import Lakehouse.Store.Tree

/- Programs that access storage.

   A script is a program that asks the store for something, goes on with the
   reply, and in the end gives a result. Paths in its requests are relative to a
   root that is chosen when the script is run. Since a script is a value, a run may
   also stop between two requests, or the requests of several scripts may be
   answered in turn. `Script.run` answers all requests of one script, and
   `Script.perform` those of a script that may fail. -/
namespace Lakehouse

/-- An access to storage. -/
inductive Request where
  | readBytes (path : String)
  | readText (path : String)
  | create (path : String) (content : ByteArray)
  | replace (path : String) (content : ByteArray)
  | list (directory : String)
  deriving DecidableEq

/-- What the store replies to a request. -/
abbrev Reply : Request → Type
  | .readBytes _ => Except StorageError ByteArray
  | .readText _ => Except StorageError String
  | .create _ _ => Except StorageError Unit
  | .replace _ _ => Except StorageError Unit
  | .list _ => Except StorageError (List Place)

namespace Tree

/-- Writes a file at `path` by `write` after the directories above it are made.
These stay even if the file cannot be written. -/
def writeBelow (t : Tree) (path : String)
    (write : Tree → Option Place → Path.Ending → Except StorageError Tree) :
    Except StorageError Unit × Tree :=
  let above := Path.parent path
  match t.makeDirectory above with
  | (.error e, t) => (.error (.fault above e.cause), t)
  | (.ok directory, t) =>
    match placeIn directory path with
    | .error e => (.error (.fault path e.cause), t)
    | .ok place =>
      match write t place (Path.ending path) with
      | .error e => (.error e, t)
      | .ok t => (.ok (), t)

/-- Writes a new file; nothing may be there yet. -/
def create (t : Tree) (path : String) (content : ByteArray) :
    Except StorageError Unit × Tree :=
  t.writeBelow path fun t place ending =>
    (t.createAt place ending content).mapError (.ofTree path)

/-- Writes a file at once, instead of the one that was there. -/
def replace (t : Tree) (path : String) (content : ByteArray) :
    Except StorageError Unit × Tree :=
  t.writeBelow path fun t place ending =>
    (t.replaceAt place ending content).mapError fun e => .fault path e.cause

def readBytes (t : Tree) (path : String) : Except StorageError ByteArray :=
  (t.read path).mapError (.ofTree path)

def readText (t : Tree) (path : String) : Except StorageError String := do
  let bytes ← t.readBytes path
  match String.fromUTF8? bytes with
  | some text => .ok text
  | none => .error (.fault path .invalidText)

/-- The reply to a request, whose paths are seen from `root`, and the tree
afterwards. -/
def answer (t : Tree) (root : Location) : (r : Request) → Reply r × Tree
  | .readBytes path => (t.readBytes (Path.join root.path path), t)
  | .readText path => (t.readText (Path.join root.path path), t)
  | .create path content => t.create (Path.join root.path path) content
  | .replace path content => t.replace (Path.join root.path path) content
  | .list directory => (t.list (Path.join root.path directory), t)

end Tree

/-- A program that accesses storage. -/
inductive Script (α : Type) where
  | done (result : α)
  | ask (request : Request) (next : Reply request → Script α)

namespace Script

variable {α β : Type}

/-- Runs one script and then another that depends on its result. -/
protected def bind : Script α → (α → Script β) → Script β
  | done a, f => f a
  | ask r next, f => ask r fun reply => (next reply).bind f

instance : Monad Script where
  pure := done
  bind := Script.bind

theorem done_bind (a : α) (f : α → Script β) : (done a >>= f) = f a := rfl

theorem ask_bind (r : Request) (next : Reply r → Script α) (f : α → Script β) :
    (ask r next >>= f) = ask r fun reply => next reply >>= f := rfl

theorem bind_done (s : Script α) : (s >>= done) = s := by
  induction s with
  | done a => rfl
  | ask r next ih => rw [ask_bind]; exact congrArg _ (funext ih)

theorem bind_bind {γ : Type} (s : Script α) (f : α → Script β) (g : β → Script γ) :
    (s >>= f >>= g) = (s >>= fun a => f a >>= g) := by
  induction s with
  | done a => rfl
  | ask r next ih => simp only [ask_bind]; exact congrArg _ (funext ih)

instance : LawfulMonad Script :=
  LawfulMonad.mk' Script (fun s => bind_done s) (fun a f => done_bind a f)
    (fun s f g => bind_bind s f g)

/-- One request, with its reply as the result. -/
def request (r : Request) : Script (Reply r) := ask r done

/-- Answers all requests in turn. -/
def run (root : Location) : Script α → Tree → α × Tree
  | done a, t => (a, t)
  | ask r next, t => run root (next (t.answer root r).1) (t.answer root r).2

@[simp] theorem run_pure (root : Location) (a : α) (t : Tree) :
    (pure a : Script α).run root t = (a, t) := rfl

@[simp] theorem run_bind (root : Location) (s : Script α) (f : α → Script β) (t : Tree) :
    (s >>= f).run root t = (f (s.run root t).1).run root (s.run root t).2 := by
  induction s generalizing t with
  | done a => rfl
  | ask r next ih => simp only [ask_bind, run, ih]

@[simp] theorem run_request (root : Location) (r : Request) (t : Tree) :
    (request r).run root t = t.answer root r := rfl

/-! ### Scripts that may fail -/

/-- What a script that may fail comes to, and the tree afterwards. -/
def perform {ε : Type} (root : Location) (script : ExceptT ε Script α) (t : Tree) :
    Except ε α × Tree :=
  script.run.run root t

section

variable {ε ε' : Type} (root : Location) (t : Tree)

@[simp] theorem perform_pure (a : α) :
    perform root (pure a : ExceptT ε Script α) t = (.ok a, t) := rfl

@[simp] theorem perform_throw (e : ε) :
    perform root (throw e : ExceptT ε Script α) t = (.error e, t) := rfl

theorem perform_mk (script : Script (Except ε α)) :
    perform root (ExceptT.mk script) t = script.run root t := rfl

theorem perform_lift (script : Script α) :
    perform root (ExceptT.lift script : ExceptT ε Script α) t =
      (.ok (script.run root t).1, (script.run root t).2) := by
  rw [perform, ExceptT.run_lift, map_eq_pure_bind, run_bind, run_pure]

/-- A failure ends a sequence, but what was written before it stays. -/
theorem perform_bind (script : ExceptT ε Script α) (next : α → ExceptT ε Script β) :
    perform root (script >>= next) t =
      match perform root script t with
      | (.ok a, t) => perform root (next a) t
      | (.error e, t) => (.error e, t) := by
  simp only [perform, ExceptT.run_bind, run_bind]
  generalize script.run.run root t = outcome
  obtain ⟨result | result, t⟩ := outcome <;> rfl

theorem perform_adapt (f : ε → ε') (script : ExceptT ε Script α) :
    perform root (script.adapt f) t =
      ((perform root script t).1.mapError f, (perform root script t).2) := by
  have h : (script.adapt f).run = script.run >>= fun r => pure (r.mapError f) := rfl
  rw [perform, h, run_bind, run_pure]
  rfl

end

end Script

end Lakehouse
