import Beamline.Text.Scanner
import Mathlib.Data.List.Forall2

/-!
# Scanners on two texts

* `Alike S T R p` : at the start of texts that `S` relates `p` reads things that `R` relates, or
  fails in both, and `T` relates the texts behind;
* `Alike.bind`, `orElse`, `opt`, `many` : the same of scanners made from others.
-/

namespace Beamline.Text

variable {α β : Type} {S T U : List Char → List Char → Prop} {R : α → α → Prop} {Q : β → β → Prop}
variable {cs ds : List Char}

/-- Both fail, or both read: things that `R` relates, before texts that `T` relates. -/
inductive Agree (R : α → α → Prop) (T : List Char → List Char → Prop) :
    Option (α × List Char) → Option (α × List Char) → Prop
  | fail : Agree R T none none
  | read {a b : α} {cs ds : List Char} : R a b → T cs ds → Agree R T (some (a, cs)) (some (b, ds))

namespace Agree

variable {x y : Option (α × List Char)}

/-- Computations that agree on what has been read. -/
theorem bind {f g : α × List Char → Option (β × List Char)} (h : Agree R T x y)
    (hfg : ∀ a b cs ds, R a b → T cs ds → Agree Q U (f (a, cs)) (g (b, ds))) :
    Agree Q U (x >>= f) (y >>= g) := by
  cases h with
  | fail => exact .fail
  | read hab hrest => exact hfg _ _ _ _ hab hrest

theorem imp {R' : α → α → Prop} (h : Agree R T x y) (hR : ∀ a b, R a b → R' a b)
    (hT : ∀ cs ds, T cs ds → U cs ds) : Agree R' U x y := by
  cases h with
  | fail => exact .fail
  | read hab hrest => exact .read (hR _ _ hab) (hT _ _ hrest)

end Agree

/-- What `p` reads at the start of texts that `S` relates agrees. -/
def Alike (S T : List Char → List Char → Prop) (R : α → α → Prop) (p : Scanner α) : Prop :=
  ∀ ⦃cs ds⦄, S cs ds → Agree R T (p cs) (p ds)

namespace Alike

variable {p : Scanner α} {q : Scanner β}

/-- What follows on things that are the same. -/
theorem bind {f g : α × List Char → Option (β × List Char)} (hp : Alike S T Eq p) (h : S cs ds)
    (hfg : ∀ a cs ds, T cs ds → Agree Q U (f (a, cs)) (g (a, ds))) :
    Agree Q U (p cs >>= f) (p ds >>= g) :=
  (hp h).bind fun _ _ _ _ hab hrest => hab ▸ hfg _ _ _ hrest

theorem map (f : α → β) (hp : Alike S T Eq p) :
    Alike S T Eq fun cs => (p cs).map fun (a, cs) => (f a, cs) := by
  intro cs ds h
  have hread := hp h
  dsimp only
  generalize p cs = x, p ds = y at hread ⊢
  cases hread with
  | fail => exact .fail
  | read hab hrest => exact .read (congrArg f hab) hrest

theorem orElse {p q : Scanner α} (hp : Alike S T R p) (hq : Alike S T R q) :
    Alike S T R (Scanner.orElse p q) := by
  intro cs ds h
  have hread := hp h
  unfold Scanner.orElse
  generalize p cs = x, p ds = y at hread ⊢
  cases hread with
  | fail => exact hq h
  | read hab hrest => exact .read hab hrest

theorem after (hq : Alike S T Q q) (hp : Alike T U R p) : Alike S U R (Scanner.after q p) :=
  fun _ _ h => (hq h).bind fun _ _ _ _ _ hrest => hp hrest

theorem before (hp : Alike S T R p) (hq : Alike T U Q q) : Alike S U R (Scanner.before p q) :=
  fun _ _ h => (hp h).bind fun _ _ _ _ hab hrest =>
    (hq hrest).bind fun _ _ _ _ _ hrest => .read hab hrest

theorem between {opening closing : Scanner β} (hopening : Alike S S Q opening)
    (hp : Alike S S R p) (hclosing : Alike S S Q closing) :
    Alike S S R (Scanner.between opening p closing) :=
  hopening.after (hp.before hclosing)

/-- It is the same whether `p` reads anything, and so is what it reads. -/
theorem opt (hp : Alike S S Eq p) (h : S cs ds) :
    (Scanner.opt p cs).1 = (Scanner.opt p ds).1 ∧ S (Scanner.opt p cs).2 (Scanner.opt p ds).2 := by
  have hread := hp h
  unfold Scanner.opt
  generalize p cs = x, p ds = y at hread ⊢
  cases hread with
  | fail => exact ⟨rfl, h⟩
  | read hab hrest => exact ⟨congrArg some hab, hrest⟩

theorem many_forall₂ (hp : Alike S S R p) (fuel : Nat) : ∀ {cs ds : List Char}, S cs ds →
    List.Forall₂ R (Scanner.many p fuel cs).1 (Scanner.many p fuel ds).1 ∧
      S (Scanner.many p fuel cs).2 (Scanner.many p fuel ds).2 := by
  induction fuel with
  | zero => exact fun h => ⟨.nil, h⟩
  | succ fuel ih =>
    intro cs ds h
    have hread := hp h
    unfold Scanner.many
    generalize p cs = x, p ds = y at hread ⊢
    cases hread with
    | fail => exact ⟨.nil, h⟩
    | read hab hrest => exact ⟨.cons hab (ih hrest).1, (ih hrest).2⟩

theorem many (hp : Alike S S Eq p) (fuel : Nat) (h : S cs ds) :
    (Scanner.many p fuel cs).1 = (Scanner.many p fuel ds).1 ∧
      S (Scanner.many p fuel cs).2 (Scanner.many p fuel ds).2 :=
  (hp.many_forall₂ fuel h).imp_left fun hsame => by rwa [List.forall₂_eq_eq_eq] at hsame

theorem sepBy1 {sep : Scanner β} (hp : Alike S S Eq p) (hsep : Alike S S Q sep) (fuel : Nat) :
    Alike S S Eq (Scanner.sepBy1 p sep fuel) :=
  fun _ _ h => hp.bind h fun a _ _ hrest =>
    have hmany := (hsep.after hp).many fuel hrest
    .read (congrArg (a :: ·) hmany.1) hmany.2

theorem sepBy {sep : Scanner β} (hp : Alike S S Eq p) (hsep : Alike S S Q sep) (fuel : Nat) :
    Alike S S Eq (Scanner.sepBy p sep fuel) := by
  intro cs ds h
  have hread := hp.sepBy1 hsep fuel h
  unfold Scanner.sepBy
  generalize Scanner.sepBy1 p sep fuel cs = x, Scanner.sepBy1 p sep fuel ds = y at hread ⊢
  cases hread with
  | fail => exact .read rfl h
  | read hab hrest => exact .read hab hrest

end Alike

end Beamline.Text
