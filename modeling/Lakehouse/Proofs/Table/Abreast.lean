import Lakehouse.Proofs.Table.Alike
import Lakehouse.Proofs.Table.Refusals

/- Two operations abreast.

   Two operations that are run apart, each in its own session, go abreast if both succeed or
   both fail with the same error (`Abreast`); the rules follow the ways in which operations
   are put together. -/
namespace Lakehouse

open Contract Log Script

/-- A copy of a table that is kept, and the files at its location. -/
structure Session where
  copy : Table
  files : Tree

variable {α β γ δ : Type}

/-- Both succeed as in `post`, or both fail with the same error and as in `fail`. -/
def Agrees (post : α → β → Session → Session → Prop) (fail : Session → Session → Prop) :
    (Except TableError α × Table) × Tree → (Except TableError β × Table) × Tree → Prop
  | ((.ok r, t), files), ((.ok r', t'), files') => post r r' ⟨t, files⟩ ⟨t', files'⟩
  | ((.error e, t), files), ((.error e', t'), files') => e = e' ∧ fail ⟨t, files⟩ ⟨t', files'⟩
  | _, _ => False

theorem Agrees.sameOutcome {related : α → β → Prop} {both : Session → Session → Prop}
    {result : Except TableError α} {result' : Except TableError β} {t t' : Table}
    {files files' : Tree}
    (h : Agrees (fun r r' a b => related r r' ∧ both a b) both ((result, t), files)
      ((result', t'), files')) :
    SameOutcome related result result' ∧ both ⟨t, files⟩ ⟨t', files'⟩ := by
  cases result with
  | error e =>
    cases result' with
    | error e' =>
      obtain ⟨rfl, hboth⟩ := h
      exact ⟨.error e, hboth⟩
    | ok r' => exact h.elim
  | ok r =>
    cases result' with
    | error e' => exact h.elim
    | ok r' => exact ⟨.ok h.1, h.2⟩

/-- If all that they ask for is admitted, what the operations come to in their sessions agrees. -/
structure Abreast (asked asked' : Request → Prop) (root : Location) (x : TableM α) (y : TableM β)
    (a b : Session) (post : α → β → Session → Session → Prop)
    (fail : Session → Session → Prop) : Prop where
  agrees : (∀ r ∈ (x.run.run a.copy).requests root a.files, asked r) →
    (∀ r ∈ (y.run.run b.copy).requests root b.files, asked' r) →
      Agrees post fail (x.perform root a.copy a.files) (y.perform root b.copy b.files)

theorem TableM.requests_bind (root : Location) (x : TableM α) (f : α → TableM β) (t : Table)
    (files : Tree) : ((x >>= f).run.run t).requests root files =
      (x.run.run t).requests root files ++
        match x.perform root t files with
        | ((.ok r, t'), files') => ((f r).run.run t').requests root files'
        | ((.error _, _), _) => [] := by
  simp only [ExceptT.run_bind, StateT.run_bind, Script.requests_bind, TableM.perform]
  generalize (x.run.run t).run root files = outcome
  obtain ⟨⟨e | r, t'⟩, files'⟩ := outcome <;> rfl

namespace Abreast

variable {asked asked' : Request → Prop} {root : Location} {a b : Session}
  {fail : Session → Session → Prop}

theorem pure {r : α} {r' : β} {post : α → β → Session → Session → Prop} (h : post r r' a b) :
    Abreast asked asked' root (Pure.pure r) (Pure.pure r') a b post fail :=
  ⟨fun _ _ => h⟩

theorem throw {e : TableError} {post : α → β → Session → Session → Prop} (h : fail a b) :
    Abreast asked asked' root (throw e) (throw e) a b post fail :=
  ⟨fun _ _ => ⟨rfl, h⟩⟩

theorem get {post : Table → Table → Session → Session → Prop} (h : post a.copy b.copy a b) :
    Abreast asked asked' root MonadState.get MonadState.get a b post fail :=
  ⟨fun _ _ => h⟩

theorem set {post : PUnit → PUnit → Session → Session → Prop} {t t' : Table}
    (h : post ⟨⟩ ⟨⟩ ⟨t, a.files⟩ ⟨t', b.files⟩) :
    Abreast asked asked' root (MonadStateOf.set t) (MonadStateOf.set t') a b post fail :=
  ⟨fun _ _ => h⟩

theorem mono {x : TableM α} {y : TableM β} {post post' : α → β → Session → Session → Prop}
    {fail' : Session → Session → Prop} (h : Abreast asked asked' root x y a b post fail)
    (hpost : ∀ r r' a b, post r r' a b → post' r r' a b) (hfail : ∀ a b, fail a b → fail' a b) :
    Abreast asked asked' root x y a b post' fail' := by
  refine ⟨fun hx hy => ?_⟩
  have hagrees := h.agrees hx hy
  generalize x.perform root a.copy a.files = outcome at hagrees ⊢
  generalize y.perform root b.copy b.files = outcome' at hagrees ⊢
  obtain ⟨⟨e | r, t⟩, files⟩ := outcome <;> obtain ⟨⟨e' | r', t'⟩, files'⟩ := outcome'
  · exact ⟨hagrees.1, hfail _ _ hagrees.2⟩
  · exact hagrees
  · exact hagrees
  · exact hpost _ _ _ _ hagrees

/-- Only what the operations come to in their sessions matters. -/
theorem congr {x x' : TableM α} {y y' : TableM β} {post : α → β → Session → Session → Prop}
    (hx : x.run.run a.copy = x'.run.run a.copy) (hy : y.run.run b.copy = y'.run.run b.copy)
    (h : Abreast asked asked' root x' y' a b post fail) :
    Abreast asked asked' root x y a b post fail := by
  refine ⟨fun hasked hasked' => ?_⟩
  rw [hx] at hasked
  rw [hy] at hasked'
  rw [TableM.perform, TableM.perform, hx, hy]
  exact h.agrees hasked hasked'

theorem bind {x : TableM α} {y : TableM β} {f : α → TableM γ} {g : β → TableM δ}
    {post : γ → δ → Session → Session → Prop}
    (h : Abreast asked asked' root x y a b
      (fun r r' a b => Abreast asked asked' root (f r) (g r') a b post fail) fail) :
    Abreast asked asked' root (x >>= f) (y >>= g) a b post fail := by
  refine ⟨fun hx hy => ?_⟩
  rw [TableM.requests_bind] at hx hy
  rw [TableM.perform_bind, TableM.perform_bind]
  have hagrees := h.agrees (fun r hr => hx r (List.mem_append_left _ hr))
    fun r hr => hy r (List.mem_append_left _ hr)
  generalize x.perform root a.copy a.files = outcome at hagrees hx ⊢
  generalize y.perform root b.copy b.files = outcome' at hagrees hy ⊢
  obtain ⟨⟨e | r, t⟩, files⟩ := outcome <;> obtain ⟨⟨e' | r', t'⟩, files'⟩ := outcome'
  · exact hagrees
  · exact hagrees.elim
  · exact hagrees.elim
  · exact hagrees.agrees (fun r hr => hx r (List.mem_append_right _ hr))
      fun r hr => hy r (List.mem_append_right _ hr)

theorem map {x : TableM α} {y : TableM β} {f : α → γ} {g : β → δ}
    {post : γ → δ → Session → Session → Prop}
    (h : Abreast asked asked' root x y a b (fun r r' a b => post (f r) (g r') a b) fail) :
    Abreast asked asked' root (f <$> x) (g <$> y) a b post fail := by
  rw [← bind_pure_comp, ← bind_pure_comp]
  exact bind (h.mono (fun _ _ _ _ hpost => pure hpost) fun _ _ hfail => hfail)

/-- The same check, made on both sides. -/
theorem guard {condition : Prop} [Decidable condition] {cause : Rejection}
    {next : PUnit → TableM α} {next' : PUnit → TableM β}
    {post : α → β → Session → Session → Prop} (hfail : condition → fail a b)
    (hnext : ¬ condition → Abreast asked asked' root (next ⟨⟩) (next' ⟨⟩) a b post fail) :
    Abreast asked asked' root (if condition then TableM.reject cause >>= next else next ⟨⟩)
      (if condition then TableM.reject cause >>= next' else next' ⟨⟩) a b post fail := by
  split
  next h => exact bind (throw (hfail h))
  next h => exact hnext h

/-- Both succeed for reasons of their own. -/
theorem of_performs {x : TableM α} {y : TableM β} {post : α → β → Session → Session → Prop}
    {p : α → Table → Tree → Prop} {q : β → Table → Tree → Prop}
    (hx : (contract asked root).Performs x a.copy a.files p fun _ _ _ => False)
    (hy : (contract asked' root).Performs y b.copy b.files q fun _ _ _ => False)
    (h : ∀ r r' a' b', p r a'.copy a'.files → q r' b'.copy b'.files →
      Proceeds asked root a.files a'.files → Proceeds asked' root b.files b'.files →
      post r r' a' b') :
    Abreast asked asked' root x y a b post fail := by
  refine ⟨fun hasked hasked' => ?_⟩
  obtain ⟨r, t, files, hrun, hpost, hproceeds⟩ :=
    hx.proceeds.succeeds hasked fun _ _ _ hfailed => hfailed.1
  obtain ⟨r', t', files', hrun', hpost', hproceeds'⟩ :=
    hy.proceeds.succeeds hasked' fun _ _ _ hfailed => hfailed.1
  simp only [contract] at hrun hrun'
  rw [hrun, hrun']
  exact h r r' ⟨t, files⟩ ⟨t', files'⟩ hpost hpost' hproceeds hproceeds'

/-- Both fail with the same error, for reasons of their own. -/
theorem of_refused {x : TableM α} {y : TableM β} {post : α → β → Session → Session → Prop}
    {e : TableError} {p q : Table → Tree → Prop}
    (hx : (contract asked root).Performs x a.copy a.files (fun _ _ _ => False)
      fun e' t files => e' = e ∧ p t files)
    (hy : (contract asked' root).Performs y b.copy b.files (fun _ _ _ => False)
      fun e' t files => e' = e ∧ q t files)
    (h : ∀ a' b', p a'.copy a'.files → q b'.copy b'.files →
      Proceeds asked root a.files a'.files → Proceeds asked' root b.files b'.files → fail a' b') :
    Abreast asked asked' root x y a b post fail := by
  refine ⟨fun hasked hasked' => ?_⟩
  obtain ⟨_, t, files, hrun, ⟨rfl, hleft⟩, hproceeds⟩ :=
    hx.proceeds.fails hasked fun _ _ _ hdone => hdone.1
  obtain ⟨_, t', files', hrun', ⟨rfl, hleft'⟩, hproceeds'⟩ :=
    hy.proceeds.fails hasked' fun _ _ _ hdone => hdone.1
  simp only [contract] at hrun hrun'
  rw [hrun, hrun']
  exact ⟨rfl, h ⟨t, files⟩ ⟨t', files'⟩ hleft hleft' hproceeds hproceeds'⟩

/-- Both are known to fail with the same error and to leave everything as it is. -/
theorem of_perform_error {x : TableM α} {y : TableM β}
    {post : α → β → Session → Session → Prop} {e : TableError}
    (hx : x.perform root a.copy a.files = ((.error e, a.copy), a.files))
    (hy : y.perform root b.copy b.files = ((.error e, b.copy), b.files)) (h : fail a b) :
    Abreast asked asked' root x y a b post fail := by
  refine ⟨fun _ _ => ?_⟩
  rw [hx, hy]
  exact ⟨rfl, h⟩

/-- Both are known to read something. -/
theorem of_perform_ok {x : FileM α} {y : FileM β} {post : α → β → Session → Session → Prop} {r : α}
    {r' : β} (hx : perform root x a.files = (.ok r, a.files))
    (hy : perform root y b.files = (.ok r', b.files)) (h : post r r' a b) :
    Abreast asked asked' root (TableM.ofFiles x) (TableM.ofFiles y) a b post fail := by
  refine ⟨fun _ _ => ?_⟩
  rw [TableM.perform_ofFiles, TableM.perform_ofFiles, hx, hy]
  exact h

/-- Both read, and what they read is related. -/
theorem of_reads {x : FileM α} {y : FileM β} {related : α → β → Prop}
    {post : α → β → Session → Session → Prop} (hx : x.run.Reads) (hy : y.run.Reads)
    (h : SameOutcome related (perform root x a.files).1 (perform root y b.files).1)
    (hpost : ∀ r r', related r r' → perform root x a.files = (.ok r, a.files) →
      perform root y b.files = (.ok r', b.files) → post r r' a b) (hfail : fail a b) :
    Abreast asked asked' root (TableM.ofFiles x) (TableM.ofFiles y) a b post fail := by
  refine ⟨fun _ _ => ?_⟩
  rw [TableM.perform_ofFiles, TableM.perform_ofFiles]
  rcases hrun : perform root x a.files with ⟨result, files⟩
  rcases hrun' : perform root y b.files with ⟨result', files'⟩
  obtain rfl : files = a.files := hx.eq_of_perform hrun
  obtain rfl : files' = b.files := hy.eq_of_perform hrun'
  rw [hrun, hrun'] at h
  cases h with
  | ok hrelated => exact hpost _ _ hrelated hrun hrun'
  | error e => exact ⟨rfl, hfail⟩

end Abreast

end Lakehouse
