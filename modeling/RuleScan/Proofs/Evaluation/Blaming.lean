import RuleScan.Proofs.Evaluation.Avoiding

/-!
# Which names a circular dependency is reported for

A circular dependency is reported by a lookup that comes upon a mark, and by nothing else.  So
whatever is put together from steps reports it for those names only for which one of its lookups
does.

`Blames Q N t` is a triple about the outcome and the scope.  From a scope with the condition `Q`
the step ends in one with this condition, and if it reports a circular dependency then it does so
for a name of `N`.  In other words, it avoids circular dependencies of all other names, and what is
known of avoiding errors of the evaluator carries over.

## Main results

* `blames_iff_avoids` — reporting some names only is avoiding the others.
* `resolveWith_valued` — a lookup of a name that has a value reports none.
* `blames_evaluateNode` — an expression reports those of its operands and of its name.
-/

namespace RuleScan

/-- Reading is never said to be a circular dependency. -/
def Source.IsPlain (source : Source) : Prop :=
  ∀ offset length n, source.read offset length ≠ .error (.circularDependency n)

theorem Source.IsCalm.isPlain {source : Source} (h : source.IsCalm) : source.IsPlain :=
  fun _ _ _ hread => nomatch h hread

/-- A file fails to be read for reasons of its own. -/
theorem Source.isPlain_claiming (name : String) (size : Nat) (bytes : Bytes) :
    (Source.claiming name size bytes).IsPlain :=
  (isCalm_claiming name size bytes).isPlain

namespace Step

variable {α : Type} {Q : Scope → Prop} {N : String → Prop}

/-- The step keeps a condition on the scope, and it reports a circular dependency for one of these
names only. -/
def Blames (Q : Scope → Prop) (N : String → Prop) (t : Step α) : Prop :=
  Ensures (fun s => s.source.IsPlain ∧ Q s.scope) t fun outcome s =>
    (s.source.IsPlain ∧ Q s.scope) ∧ ∀ n, outcome = .error (.circularDependency n) → N n

/-- A circular dependency of another name. -/
def IsCircularBeyond (N : String → Prop) (e : Error) : Prop :=
  ∃ n, e = .circularDependency n ∧ ¬ N n

theorem blames_iff_avoids {t : Step α} :
    Blames Q N t ↔ Avoids (fun s => s.source.IsPlain ∧ Q s.scope) (IsCircularBeyond N) t := by
  refine forall₂_congr fun s _ => and_congr_right fun _ => ⟨fun h e he => ?_, fun h n hn => ?_⟩
  · rintro ⟨n, rfl, hn⟩
    exact hn (h n he)
  · exact Classical.byContradiction fun hnot => h _ hn ⟨n, rfl, hnot⟩

/-- Files have nothing to do with it, and operators cannot reach the scope. -/
theorem watches_blames (Q : Scope → Prop) (N : String → Prop) :
    Watches (fun s => s.source.IsPlain ∧ Q s.scope) (IsCircularBeyond N) where
  reserved := by
    rintro _ ⟨n, rfl, -⟩
    rfl
  read := by
    rintro s ⟨hplain, -⟩ offset length _ hread ⟨n, rfl, -⟩
    exact hplain offset length n hread
  spared _ _ _ _ _ _ hs := hs

theorem blames_throw {e : Error} (h : ∀ n, e = .circularDependency n → N n) :
    Blames Q N (throw e : Step α) :=
  blames_iff_avoids.2 (avoids_throw fun ⟨n, hn, hnot⟩ => hnot (h n hn))

/-- The level does not matter. -/
theorem blames_nested {limit : Nat} {t : Step α} (ht : Blames Q N t) :
    Blames Q N (nested limit t) := by
  refine blames_iff_avoids.2 (avoids_nested (blames_iff_avoids.1 ht) ?_ (fun _ hs => hs)
    fun _ hs => hs)
  rintro s - - ⟨n, hn, -⟩
  cases hn

end Step

/-! ## Expressions -/

namespace Environment

open Step

variable {Q : Scope → Prop} {N : String → Prop} {rules : RuleSet} {eval : Expr → Step Value}

/-- A lookup that comes upon nothing but a value leaves the session as it is, and it reports no
circular dependency. -/
theorem resolveWith_valued {name : String} {s : Session}
    (h : name.toList.head? ≠ some '$' → ∀ level b, s.scope.lookup name = some (level, b) →
      ∃ v, b = .resolved v) :
    (resolveWith eval name).after s = s ∧
      ∀ n, (resolveWith eval name).outcome s ≠ .error (.circularDependency n) :=
  (resolveWith_of_valued h).imp_right fun hreserved _ hn => nomatch hreserved _ hn

/-- What an expression reports, its operands report, or the lookup of its name. -/
theorem blames_evaluateNode {e : Expr} (heval : ∀ x ∈ e.operands, Blames Q N (eval x))
    (hname : ∀ name, e = .var name → Blames Q N (resolveWith eval name)) :
    Blames Q N (evaluateNode ⟨rules, .builtins⟩ eval e) :=
  blames_iff_avoids.2 ((watches_blames Q N).evaluateNode
    (fun x hx => blames_iff_avoids.1 (heval x hx))
    fun name he => blames_iff_avoids.1 (hname name he))

/-- A condition that is evaluated may be the last one. -/
theorem blames_allHold {cs : List Expr} (heval : ∀ c ∈ cs, Blames Q N (eval c)) :
    Blames Q N (allHold eval cs) :=
  blames_iff_avoids.2 ((watches_blames Q N).allHold fun c hc => blames_iff_avoids.1 (heval c hc))

end Environment

end RuleScan
