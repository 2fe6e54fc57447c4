import Lakehouse.Store.Script

/- What scripts keep and what they come to.

   A contract says which requests are admitted and what every single access has to
   keep. A script that is run from a tree meets the contract with a postcondition if,
   as long as its requests are admitted, each access keeps what it should and the
   outcome satisfies the postcondition (`Ensures`). The rules follow the way in which
   scripts are put together, and `Ensures.run` and `Ensures.runFor` say what a contract
   means for a whole run and for one that stops in between.

   `Yields` is for scripts of which only the kind of their requests matters: it asks for
   no tree, and so covers every reply. -/
namespace Lakehouse

namespace Script

variable {α β : Type}

/-- The requests of a run, in their order. -/
def requests (root : Location) : Script α → Tree → List Request
  | done _, _ => []
  | ask r next, t => r :: requests root (next (t.answer root r).1) (t.answer root r).2

/-- A run that stops for good after `limit` accesses, if the script is not done by
then. -/
def runFor (root : Location) : (limit : Nat) → Script α → Tree → Option α × Tree
  | _, done a, t => (some a, t)
  | 0, ask _ _, t => (none, t)
  | limit + 1, ask r next, t =>
    runFor root limit (next (t.answer root r).1) (t.answer root r).2

theorem requests_bind (root : Location) (s : Script α) (f : α → Script β) (t : Tree) :
    (s >>= f).requests root t =
      s.requests root t ++ (f (s.run root t).1).requests root (s.run root t).2 := by
  induction s generalizing t with
  | done a => rfl
  | ask r next ih => rw [ask_bind, requests, ih, requests, List.cons_append, run]

theorem runFor_done (root : Location) (limit : Nat) (a : α) (t : Tree) :
    (done a).runFor root limit t = (some a, t) := by
  cases limit <;> rfl

/-- Without an access nothing changes. -/
theorem runFor_zero (root : Location) (s : Script α) (t : Tree) : (s.runFor root 0 t).2 = t := by
  cases s <;> rfl

/-- A run that is done within the limit is the whole run. -/
theorem run_of_runFor {root : Location} {limit : Nat} {s : Script α} {t t' : Tree} {a : α}
    (h : s.runFor root limit t = (some a, t')) : s.run root t = (a, t') := by
  induction s generalizing limit t with
  | done b =>
    rw [runFor_done] at h
    cases h
    rfl
  | ask r next ih =>
    cases limit with
    | zero => exact absurd h (by simp [runFor])
    | succ limit =>
      rw [runFor] at h
      exact ih _ h

end Script

/-- What scripts below a root may ask for, and what every access keeps. -/
structure Contract where
  root : Location
  admits : Request → Prop
  keeps : Tree → Tree → Prop

namespace Contract

open Script

variable {α β ε ε' : Type} {c : Contract} {t : Tree}

/-- As long as its requests are admitted, each access of the script keeps what it
should, and the outcome satisfies the postcondition. -/
def Ensures (c : Contract) : Script α → Tree → (α → Tree → Prop) → Prop
  | .done a, t, post => post a t
  | .ask r next, t, post =>
    c.admits r → c.keeps t (t.answer c.root r).2 ∧
      Ensures c (next (t.answer c.root r).1) (t.answer c.root r).2 post

namespace Ensures

theorem pure {a : α} {post : α → Tree → Prop} (h : post a t) :
    c.Ensures (Pure.pure a) t post := h

theorem mono {s : Script α} {post post' : α → Tree → Prop} (h : c.Ensures s t post)
    (hpost : ∀ a t, post a t → post' a t) : c.Ensures s t post' := by
  induction s generalizing t with
  | done a => exact hpost a t h
  | ask r next ih =>
    intro hr
    exact ⟨(h hr).1, ih _ (h hr).2⟩

theorem bind {s : Script α} {f : α → Script β} {post : β → Tree → Prop}
    (h : c.Ensures s t fun a t => c.Ensures (f a) t post) : c.Ensures (s >>= f) t post := by
  induction s generalizing t with
  | done a => exact h
  | ask r next ih =>
    intro hr
    exact ⟨(h hr).1, ih _ (h hr).2⟩

theorem request {r : Request} {post : Reply r → Tree → Prop}
    (h : c.admits r → c.keeps t (t.answer c.root r).2 ∧
      post (t.answer c.root r).1 (t.answer c.root r).2) :
    c.Ensures (Script.request r) t post := h

/-- What every access keeps is kept by the whole. -/
theorem keep {s : Script α} {post : α → Tree → Prop} (h : c.Ensures s t post)
    (hrefl : ∀ t, c.keeps t t) (htrans : ∀ t t' t'', c.keeps t t' → c.keeps t' t'' → c.keeps t t'') :
    c.Ensures s t fun a t' => post a t' ∧ c.keeps t t' := by
  induction s generalizing t with
  | done a => exact ⟨h, hrefl t⟩
  | ask r next ih =>
    intro hr
    obtain ⟨hkeep, hnext⟩ := h hr
    exact ⟨hkeep, (ih _ hnext).mono fun a t' ha => ⟨ha.1, htrans _ _ _ hkeep ha.2⟩⟩

/-- The outcome of a run whose requests are admitted. -/
theorem run {s : Script α} {post : α → Tree → Prop} (h : c.Ensures s t post)
    (hadmits : ∀ r ∈ s.requests c.root t, c.admits r) :
    post (s.run c.root t).1 (s.run c.root t).2 := by
  induction s generalizing t with
  | done a => exact h
  | ask r next ih =>
    rw [requests] at hadmits
    exact ih _ (h (hadmits r (by simp))).2 fun r' hr' => hadmits r' (by simp [hr'])

/-- What every access keeps is kept by a run, wherever it stops. -/
theorem runFor {s : Script α} {post : α → Tree → Prop} (h : c.Ensures s t post)
    (hadmits : ∀ r ∈ s.requests c.root t, c.admits r) (hrefl : ∀ t, c.keeps t t)
    (htrans : ∀ t t' t'', c.keeps t t' → c.keeps t' t'' → c.keeps t t'') (limit : Nat) :
    c.keeps t (s.runFor c.root limit t).2 ∧
      c.keeps (s.runFor c.root limit t).2 (s.run c.root t).2 := by
  induction s generalizing t limit with
  | done a =>
    rw [runFor_done]
    exact ⟨hrefl t, hrefl t⟩
  | ask r next ih =>
    rw [requests] at hadmits
    obtain ⟨hkeep, hnext⟩ := h (hadmits r (by simp))
    have hrest := fun r' hr' => hadmits r' (List.mem_cons_of_mem r hr')
    cases limit with
    | zero =>
      have hafter := (ih _ hnext hrest 0).2
      rw [runFor_zero] at hafter
      exact ⟨hrefl t, htrans _ _ _ hkeep hafter⟩
    | succ limit =>
      obtain ⟨hbefore, hafter⟩ := ih _ hnext hrest limit
      exact ⟨htrans _ _ _ hkeep hbefore, hafter⟩

end Ensures

/-! ### Scripts that may fail -/

/-- A success satisfies `post`, and a failure satisfies `fail`. -/
def Attempts (c : Contract) (script : ExceptT ε Script α) (t : Tree) (post : α → Tree → Prop)
    (fail : ε → Tree → Prop) : Prop :=
  c.Ensures script.run t fun
    | .ok a, t => post a t
    | .error e, t => fail e t

namespace Attempts

variable {post : α → Tree → Prop} {fail : ε → Tree → Prop}

theorem pure {a : α} (h : post a t) :
    c.Attempts (Pure.pure a : ExceptT ε Script α) t post fail := h

theorem throw {e : ε} (h : fail e t) :
    c.Attempts (throw e : ExceptT ε Script α) t post fail := h

theorem mk {s : Script (Except ε α)} (h : c.Ensures s t fun
    | .ok a, t => post a t
    | .error e, t => fail e t) : c.Attempts (ExceptT.mk s) t post fail := h

theorem mono {x : ExceptT ε Script α} {post' : α → Tree → Prop} {fail' : ε → Tree → Prop}
    (h : c.Attempts x t post fail) (hpost : ∀ a t, post a t → post' a t)
    (hfail : ∀ e t, fail e t → fail' e t) : c.Attempts x t post' fail' := by
  refine Ensures.mono h fun r t hr => ?_
  cases r with
  | ok a => exact hpost a t hr
  | error e => exact hfail e t hr

theorem bind {x : ExceptT ε Script α} {f : α → ExceptT ε Script β} {post : β → Tree → Prop}
    (h : c.Attempts x t (fun a t => c.Attempts (f a) t post fail) fail) :
    c.Attempts (x >>= f) t post fail := by
  refine Ensures.bind (Ensures.mono h fun r t hr => ?_)
  cases r with
  | ok a => exact hr
  | error e => exact hr

theorem lift {s : Script α} (h : c.Ensures s t post) :
    c.Attempts (ExceptT.lift s : ExceptT ε Script α) t post fail := by
  refine Ensures.bind (Ensures.mono h fun a t ha => ?_)
  exact ha

theorem map {x : ExceptT ε Script α} {f : α → β} {post : β → Tree → Prop}
    (h : c.Attempts x t (fun a t => post (f a) t) fail) : c.Attempts (f <$> x) t post fail := by
  rw [← bind_pure_comp]
  exact bind (h.mono (fun _ _ ha => pure ha) fun _ _ he => he)

theorem adapt {x : ExceptT ε Script α} {f : ε → ε'} {fail : ε' → Tree → Prop}
    (h : c.Attempts x t post fun e t => fail (f e) t) : c.Attempts (x.adapt f) t post fail := by
  have hrun : (x.adapt f).run = x.run >>= fun r => Pure.pure (r.mapError f) := rfl
  rw [Attempts, hrun]
  refine Ensures.bind (Ensures.mono h fun r t hr => ?_)
  cases r with
  | ok a => exact hr
  | error e => exact hr

/-- What every access keeps is kept by the whole. -/
theorem keep {x : ExceptT ε Script α} (h : c.Attempts x t post fail) (hrefl : ∀ t, c.keeps t t)
    (htrans : ∀ t t' t'', c.keeps t t' → c.keeps t' t'' → c.keeps t t'') :
    c.Attempts x t (fun a t' => post a t' ∧ c.keeps t t') fun e t' => fail e t' ∧ c.keeps t t' := by
  refine (Ensures.keep h hrefl htrans).mono ?_
  rintro (e | a) t' h'
  · exact h'
  · exact h'

/-- What comes of a run whose requests are admitted. -/
theorem outcome {x : ExceptT ε Script α} (h : c.Attempts x t post fail)
    (hadmits : ∀ r ∈ x.run.requests c.root t, c.admits r) :
    (∃ a t', perform c.root x t = (.ok a, t') ∧ post a t') ∨
    ∃ e t', perform c.root x t = (.error e, t') ∧ fail e t' := by
  have hresult := Ensures.run h hadmits
  rw [perform]
  rcases hrun : x.run.run c.root t with ⟨e | a, t'⟩
  · rw [hrun] at hresult
    exact .inr ⟨e, t', rfl, hresult⟩
  · rw [hrun] at hresult
    exact .inl ⟨a, t', rfl, hresult⟩

/-- What cannot fail gives a result. -/
theorem succeeds {x : ExceptT ε Script α} (h : c.Attempts x t post fail)
    (hadmits : ∀ r ∈ x.run.requests c.root t, c.admits r) (hnever : ∀ e t', ¬ fail e t') :
    ∃ a t', perform c.root x t = (.ok a, t') ∧ post a t' :=
  (h.outcome hadmits).resolve_right fun ⟨e, t', _, hfail⟩ => hnever e t' hfail

/-- What cannot succeed gives an error. -/
theorem fails {x : ExceptT ε Script α} (h : c.Attempts x t post fail)
    (hadmits : ∀ r ∈ x.run.requests c.root t, c.admits r) (hnever : ∀ a t', ¬ post a t') :
    ∃ e t', perform c.root x t = (.error e, t') ∧ fail e t' :=
  (h.outcome hadmits).resolve_left fun ⟨a, t', _, hpost⟩ => hnever a t' hpost

/-- A walk through a list, of which each step gives a certain result, keeps an invariant
and brings about something that lasts. -/
theorem mapM (inv : Tree → Prop) {lasting : α → Tree → Prop} {g : α → β} {l : List α}
    {f : α → ExceptT ε Script β} (hrefl : ∀ t, c.keeps t t)
    (htrans : ∀ t t' t'', c.keeps t t' → c.keeps t' t'' → c.keeps t t'')
    (hlast : ∀ a t t', c.keeps t t' → lasting a t → lasting a t')
    (hstep : ∀ a ∈ l, ∀ t, inv t →
      c.Attempts (f a) t (fun b t' => b = g a ∧ inv t' ∧ lasting a t') fail)
    (t : Tree) (ht : inv t) :
    c.Attempts (l.mapM f) t (fun bs t' => bs = l.map g ∧ inv t' ∧ ∀ a ∈ l, lasting a t') fail := by
  induction l generalizing t with
  | nil =>
    rw [List.mapM_nil]
    exact pure ⟨rfl, ht, by simp⟩
  | cons a l ih =>
    rw [List.mapM_cons]
    refine bind ((hstep a (by simp) t ht).mono ?_ fun _ _ he => he)
    rintro b t₁ ⟨rfl, ht₁, ha⟩
    have hrest := ih (fun a ha => hstep a (by simp [ha])) t₁ ht₁
    refine bind ((hrest.keep hrefl htrans).mono ?_ fun _ _ he => he.1)
    rintro bs t₂ ⟨⟨rfl, ht₂, hl⟩, hkeep⟩
    refine pure ⟨rfl, ht₂, fun x hx => ?_⟩
    rcases List.mem_cons.1 hx with rfl | hx
    · exact hlast _ _ _ hkeep ha
    · exact hl x hx

end Attempts

end Contract

/-! ### Kinds of requests -/

/-- Whatever the replies are, all requests of the script are of this kind and its
result satisfies `q`. -/
def Script.Yields {α : Type} (p : Request → Prop) (q : α → Prop) : Script α → Prop
  | .done a => q a
  | .ask r next => p r ∧ ∀ reply, Yields p q (next reply)

namespace Script.Yields

variable {α β : Type} {p : Request → Prop}

theorem pure {q : α → Prop} {a : α} (h : q a) : Yields p q (Pure.pure a) := h

theorem request {r : Request} (h : p r) : Yields p (fun _ => True) (Script.request r) :=
  ⟨h, fun _ => trivial⟩

theorem mono {s : Script α} {q q' : α → Prop} (h : s.Yields p q) (hq : ∀ a, q a → q' a) :
    s.Yields p q' := by
  induction s with
  | done a => exact hq a h
  | ask r next ih => exact ⟨h.1, fun reply => ih reply (h.2 reply)⟩

theorem bind {s : Script α} {f : α → Script β} {q : α → Prop} {q' : β → Prop} (h : s.Yields p q)
    (hf : ∀ a, q a → (f a).Yields p q') : (s >>= f).Yields p q' := by
  induction s with
  | done a => exact hf a h
  | ask r next ih => exact ⟨h.1, fun reply => ih reply (h.2 reply)⟩

/-- If requests of one kind are of another, so are those of a script. -/
theorem weaken {p' : Request → Prop} {q : α → Prop} {s : Script α} (h : s.Yields p q)
    (hp : ∀ r, p r → p' r) : s.Yields p' q := by
  induction s with
  | done a => exact h
  | ask r next ih => exact ⟨hp r h.1, fun reply => ih reply (h.2 reply)⟩

/-! Scripts that may fail, of which the result does not matter. -/

section

variable {ε ε' : Type}

theorem bindE {x : ExceptT ε Script α} {f : α → ExceptT ε Script β}
    (h : x.run.Yields p fun _ => True) (hf : ∀ a, (f a).run.Yields p fun _ => True) :
    (x >>= f).run.Yields p fun _ => True := by
  refine bind h fun r _ => ?_
  cases r with
  | ok a => exact hf a
  | error e => exact trivial

theorem lift {s : Script α} (h : s.Yields p fun _ => True) :
    (ExceptT.lift s : ExceptT ε Script α).run.Yields p fun _ => True :=
  bind h fun _ _ => trivial

theorem adapt {x : ExceptT ε Script α} {f : ε → ε'} (h : x.run.Yields p fun _ => True) :
    (x.adapt f).run.Yields p fun _ => True :=
  bind h fun _ _ => trivial

theorem mapM {f : α → ExceptT ε Script β} (h : ∀ a, (f a).run.Yields p fun _ => True)
    (l : List α) : (l.mapM f).run.Yields p fun _ => True := by
  induction l with
  | nil =>
    rw [List.mapM_nil]
    exact trivial
  | cons a l ih =>
    rw [List.mapM_cons]
    exact bindE (h a) fun b => bindE ih fun bs => trivial

end

end Script.Yields

end Lakehouse
