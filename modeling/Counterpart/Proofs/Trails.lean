/-
Readers that leave a trail. A `Walk` goes where a `Reader` goes and keeps where it was behind each of its steps, and the rounds of
its loops that others follow. `Retraces` says that a walk comes to an end, and to what the reader comes to, with a trail that stays
within the tokens and within a number of steps. Steps are charged to the tokens that are taken: the `toll` of a trail counts its
steps and some more for each token that is left, and what is `ahead` pays for looking at all of these from each of them.
-/
import Counterpart.Proofs.CheckedSources

namespace Counterpart.Kotlin

open Text

/-! ## Trails -/

/-- A round of a loop that another one follows: where it started, and where the next one starts. -/
structure Round where
  start : Nat
  stop : Nat

/-- Where a reader is, where it was behind each of its steps, and the rounds of its loops. -/
structure Trail where
  place : Nat
  steps : List Nat
  rounds : List Round

namespace Trail

def start : Trail := ⟨0, [], []⟩

/-- A step to a place. -/
def goTo (t : Trail) (place : Nat) : Trail := { t with place := place, steps := place :: t.steps }

/-- A round from `start` to where the reader is. -/
def round (t : Trail) (start : Nat) : Trail := { t with rounds := ⟨start, t.place⟩ :: t.rounds }

/-- The steps of a trail, and 32 more for each token that is left of `n`. -/
def toll (n : Nat) (t : Trail) : Nat := t.steps.length + 32 * (n - t.place)

/-- What lets a reader look at all the tokens that are left, from each of them. -/
def ahead (n : Nat) (t : Trail) : Nat := 32 * ((n - t.place) * (n - t.place))

/-- No place is beyond the end, each round goes further on, and there are no more steps than `limit`. -/
structure Within (n limit : Nat) (t : Trail) : Prop where
  place_le : t.place ≤ n
  steps_le : ∀ p ∈ t.steps, p ≤ n
  rounds_lt : ∀ r ∈ t.rounds, r.start < r.stop ∧ r.stop ≤ n
  length_le : t.steps.length ≤ limit

section

variable {n limit : Nat} {t u : Trail}

theorem Within.start (n limit : Nat) : start.Within n limit :=
  ⟨Nat.zero_le _, List.forall_mem_nil _, List.forall_mem_nil _, Nat.zero_le _⟩

theorem Within.goTo {p : Nat} (h : t.Within n limit) (hp : p ≤ n) (hroom : t.toll n + 1 ≤ limit) : (t.goTo p).Within n limit := by
  refine ⟨hp, List.forall_mem_cons.mpr ⟨hp, h.steps_le⟩, h.rounds_lt, ?_⟩
  rw [toll] at hroom
  rw [Trail.goTo, List.length_cons]
  omega

theorem Within.round {p : Nat} (h : t.Within n limit) (hp : p < t.place) : (t.round p).Within n limit :=
  ⟨h.place_le, h.steps_le, List.forall_mem_cons.mpr ⟨⟨hp, h.place_le⟩, h.rounds_lt⟩, h.length_le⟩

theorem toll_goTo (p : Nat) : (t.goTo p).toll n + 32 * (n - t.place) = t.toll n + 32 * (n - p) + 1 := by
  simp only [toll, goTo, List.length_cons]
  omega

theorem le_ahead (n : Nat) (t : Trail) : 32 * (n - t.place) ≤ t.ahead n := Nat.mul_le_mul_left 32 (Nat.le_mul_self _)

theorem ahead_le (h : t.place ≤ u.place) : u.ahead n ≤ t.ahead n :=
  Nat.mul_le_mul_left 32 (Nat.mul_self_le_mul_self (Nat.sub_le_sub_left h n))

/-- A token that is taken leaves enough to look once at all that were left. -/
theorem ahead_lt (h : t.place < u.place) (hu : u.place ≤ n) : u.ahead n + 32 * (n - t.place) ≤ t.ahead n := by
  obtain ⟨m, hm⟩ : ∃ m, n - t.place = m + 1 := ⟨n - t.place - 1, by omega⟩
  have hsquare : (n - u.place) * (n - u.place) ≤ m * m := Nat.mul_self_le_mul_self (by omega)
  rw [ahead, ahead, hm]
  simp only [Nat.add_mul, Nat.mul_add]
  omega

end

end Trail

/-! ## Walks -/

/-- A reader of a source that leaves a trail, also where it is stopped. -/
abbrev Walk (source : String) : Type → Type := ExceptT (Stop source) (StateT Trail Option)

namespace Walk

variable {source : String} {α : Type}

/-- Where the walk is. -/
def place : Walk source Nat := fun t => some (.ok t.place, t)

/-- A reader without a loop, as one step. -/
def step (x : Reader source α) : Walk source α := fun t =>
  match (x.run t.place).run with
  | some (.ok (a, p)) => some (.ok a, t.goTo p)
  | some (.error e) => some (.error e, t.goTo t.place)
  | none => none

/-- Ends a round of a loop that started at `start`, to go on to another one. -/
def again (start : Nat) : Walk source Unit := fun t => some (.ok (), t.round start)

end Walk

/-- The tokens of a source, for walks. They do what the readers of `TokenSpans` with their names do: what these do without a loop is
a step, and each loop notes where a round started before it goes on to another. -/
abbrev WalkedSpans := TokenSpans

/-- The reader comes to an end, and with a value only such that `Q` holds of it and the next position. -/
def Reader.Reaches {source : String} {α : Type} (x : Reader source α) (pos : Nat) (Q : α → Nat → Prop) : Prop :=
  ∃ r, (x.run pos).run = some r ∧ ∀ a pos', r = .ok (a, pos') → Q a pos'

/-- The walk comes to an end, where the reader comes to an end, with the same value or stopped for the same; its trail is within
the limits, and `Q` holds of a value and the trail. -/
def Retraces (n limit : Nat) {source : String} {α : Type} (x : Reader source α) (w : Walk source α) (t : Trail)
    (Q : α → Trail → Prop) : Prop :=
  ∃ r u, w t = some (r, u) ∧ (x.run t.place).run = some (r.map (·, u.place)) ∧ u.Within n limit ∧ ∀ a, r = .ok a → Q a u

namespace Reader.Reaches

variable {source : String} {α β : Type} {x : Reader source α} {k : α → Reader source β} {pos : Nat}
  {P : α → Nat → Prop} {Q : β → Nat → Prop}

theorem pure {a : α} (h : P a pos) : Reaches (Pure.pure a : Reader source α) pos P :=
  ⟨.ok (a, pos), rfl, fun _ _ heq => by cases heq; exact h⟩

theorem throw (e : Stop source) : Reaches (throw e : Reader source α) pos P :=
  ⟨.error e, rfl, fun _ _ heq => by cases heq⟩

theorem bind (hx : Reaches x pos P) (hk : ∀ a pos', P a pos' → Reaches (k a) pos' Q) : Reaches (x >>= k) pos Q := by
  obtain ⟨r, hrun, hr⟩ := hx
  cases r with
  | error e => exact ⟨.error e, by simp [StateT.run_bind, ExceptT.run_bind, hrun], fun _ _ heq => by cases heq⟩
  | ok p =>
    obtain ⟨r, hrun', hr'⟩ := hk p.1 p.2 (hr _ _ rfl)
    exact ⟨r, by simp [StateT.run_bind, ExceptT.run_bind, hrun, hrun'], hr'⟩

theorem mono {P' : α → Nat → Prop} (hx : Reaches x pos P) (h : ∀ a pos', P a pos' → P' a pos') : Reaches x pos P' := by
  obtain ⟨r, hrun, hr⟩ := hx
  exact ⟨r, hrun, fun a pos' heq => h a pos' (hr a pos' heq)⟩

end Reader.Reaches

namespace Retraces

variable {n limit : Nat} {source : String} {α β : Type} {x : Reader source α} {k : α → Reader source β} {w : Walk source α}
  {l : α → Walk source β} {t : Trail} {P : α → Trail → Prop} {Q : β → Trail → Prop}

theorem pure {a : α} (ht : t.Within n limit) (h : P a t) : Retraces n limit (Pure.pure a : Reader source α) (Pure.pure a) t P :=
  ⟨.ok a, t, rfl, rfl, ht, fun _ heq => by cases heq; exact h⟩

theorem bind (hx : Retraces n limit x w t P) (hk : ∀ a u, u.Within n limit → P a u → Retraces n limit (k a) (l a) u Q) :
    Retraces n limit (x >>= k) (w >>= l) t Q := by
  obtain ⟨r, u, hwalk, hread, hu, hr⟩ := hx
  have hwalked : (w >>= l) t = (w t).bind fun p => ExceptT.bindCont l p.1 p.2 := rfl
  have hreading : ((x >>= k).run t.place).run = (x.run t.place).run.bind (ExceptT.bindCont fun p => k p.1 p.2) := rfl
  cases r with
  | error e =>
    refine ⟨.error e, u, ?_, ?_, hu, fun _ heq => by cases heq⟩
    · rw [hwalked, hwalk]
      rfl
    · rw [hreading, hread]
      rfl
  | ok a =>
    obtain ⟨r, v, hwalk', hread', hv, hr'⟩ := hk a u hu (hr a rfl)
    refine ⟨r, v, ?_, ?_, hv, hr'⟩
    · rw [hwalked, hwalk]
      exact hwalk'
    · rw [hreading, hread]
      exact hread'

theorem mono {P' : α → Trail → Prop} (hx : Retraces n limit x w t P) (h : ∀ a u, P a u → P' a u) : Retraces n limit x w t P' := by
  obtain ⟨r, u, hwalk, hrun, hu, hr⟩ := hx
  exact ⟨r, u, hwalk, hrun, hu, fun a heq => h a u (hr a heq)⟩

/-- A reader without a loop is one step, which is charged to the tokens that it takes. -/
theorem step {R : α → Nat → Prop} (hx : x.Reaches t.place R) (hR : ∀ a p, R a p → p ≤ n) (ht : t.Within n limit)
    (hroom : t.toll n + 1 ≤ limit) : Retraces n limit x (Walk.step x) t fun a u =>
      R a u.place ∧ u.toll n + 32 * (n - t.place) = t.toll n + 32 * (n - u.place) + 1 := by
  obtain ⟨r, hrun, hr⟩ := hx
  cases r with
  | error e =>
    refine ⟨.error e, t.goTo t.place, ?_, hrun, ht.goTo ht.place_le hroom, fun _ heq => by cases heq⟩
    rw [Walk.step, hrun]
  | ok p =>
    obtain ⟨a, p⟩ := p
    have hp := hr a p rfl
    refine ⟨.ok a, t.goTo p, ?_, hrun, ht.goTo (hR a p hp) hroom, fun _ heq => ?_⟩
    · rw [Walk.step, hrun]
    · cases heq
      exact ⟨hp, Trail.toll_goTo p⟩

/-- A step that takes no token. -/
theorem look {R : α → Prop} (hx : x.Reaches t.place fun a p => p = t.place ∧ R a) (ht : t.Within n limit)
    (hroom : t.toll n + 1 ≤ limit) : Retraces n limit x (Walk.step x) t fun a u =>
      R a ∧ u.place = t.place ∧ u.toll n = t.toll n + 1 :=
  (step hx (fun _ _ h => by rw [h.1]; exact ht.place_le) ht hroom).mono fun _ _ h => by
    obtain ⟨⟨hplace, hR⟩, htoll⟩ := h
    rw [hplace] at htoll
    exact ⟨hR, hplace, by omega⟩

/-- A step that may take tokens. -/
theorem take {R : α → Nat → Prop} (hx : x.Reaches t.place fun a p => t.place ≤ p ∧ p ≤ n ∧ R a p) (ht : t.Within n limit)
    (hroom : t.toll n + 1 ≤ limit) : Retraces n limit x (Walk.step x) t fun a u =>
      R a u.place ∧ t.place ≤ u.place ∧ u.toll n + 32 * u.place = t.toll n + 32 * t.place + 1 :=
  (step hx (fun _ _ h => h.2.1) ht hroom).mono fun _ _ h => by
    obtain ⟨⟨hle, hle', hR⟩, htoll⟩ := h
    exact ⟨hR, hle, by omega⟩

theorem getPlace {k : Nat → Reader source α} {w : Walk source α} (h : Retraces n limit (k t.place) w t P) :
    Retraces n limit (MonadState.get >>= k) w t P := h

/-- Going back to an earlier place. -/
theorem back {p : Nat} (hp : p ≤ t.place) (ht : t.Within n limit) (hroom : t.toll n + 1 ≤ limit) :
    Retraces n limit (set p : Reader source PUnit) (Walk.step (set p)) t fun _ u =>
      u.place = p ∧ u.toll n + 32 * p = t.toll n + 32 * t.place + 1 := by
  have hle := ht.place_le
  have hset : Reader.Reaches (set p : Reader source PUnit) t.place fun _ q => q = p :=
    ⟨.ok (⟨⟩, p), rfl, fun _ _ heq => by cases heq; rfl⟩
  refine (step hset (fun _ _ h => by omega) ht hroom).mono fun _ u h => ?_
  obtain ⟨hplace, htoll⟩ := h
  exact ⟨hplace, by omega⟩

theorem place {l : Nat → Walk source α} (h : Retraces n limit x (l t.place) t P) : Retraces n limit x (Walk.place >>= l) t P := h

theorem get {k : Nat → Reader source α} {l : Nat → Walk source α} (h : Retraces n limit (k t.place) (l t.place) t P) :
    Retraces n limit (MonadState.get >>= k) (Walk.place >>= l) t P := h

theorem again {start : Nat} {l : Unit → Walk source α} (hstart : start < t.place) (ht : t.Within n limit)
    (h : ∀ u, u.Within n limit → u.place = t.place ∧ u.place ≤ n ∧ u.toll n = t.toll n ∧ u.ahead n = t.ahead n →
      Retraces n limit x (l ()) u P) : Retraces n limit x (Walk.again start >>= l) t P :=
  h (t.round start) (ht.round hstart) ⟨rfl, ht.place_le, rfl, rfl⟩

end Retraces

/-! ## Readers without loops -/

namespace TokenSpan

variable {t : TokenSpan} {c : Char}

theorem isEnd_of_isMark (h : t.isMark c = true) : t.isEnd = false := by
  rw [isEnd, eq_of_beq h]
  rfl

theorem isEnd_of_isName (h : t.isName = true) : t.isEnd = false := by
  rw [isEnd, eq_of_beq h]
  rfl

theorem isEnd_of_closing? {c : Char} (h : t.closing? = some c) : t.isEnd = false := by
  rw [closing?] at h
  split_ifs at h with hparen hbracket hbrace
  · exact isEnd_of_isMark hparen
  · exact isEnd_of_isMark hbracket
  · exact isEnd_of_isMark hbrace

theorem isEnd_of_opens (h : t.opens = true) : t.isEnd = false := by
  rw [opens, Bool.or_eq_true, Bool.or_eq_true] at h
  obtain (h | h) | h := h <;> exact isEnd_of_isMark h

end TokenSpan

namespace Reader.Reaches

variable {source : String} {α : Type} {p : Nat}

theorem get : Reaches (MonadState.get : Reader source Nat) p fun a q => q = p ∧ a = p := .pure ⟨rfl, rfl⟩

theorem modify (f : Nat → Nat) : Reaches (modify f : Reader source PUnit) p fun _ q => q = f p :=
  ⟨.ok (⟨⟩, f p), rfl, fun _ _ heq => by cases heq; rfl⟩

theorem less (m : Nat) : Reaches (less m : Reader source Nat) p fun a q => q = p ∧ m = a + 1 := by
  cases m with
  | zero => exact .throw _
  | succ m => exact .pure ⟨rfl, rfl⟩

theorem slice (start stop : Nat) : Reaches (slice start stop : Reader source String) p fun _ q => q = p ∧ True := by
  rw [Reader.slice]
  split
  · exact .pure ⟨rfl, trivial⟩
  · exact .throw _

theorem refuse (cause : Cause) (start stop : Nat) (Q : α → Nat → Prop) : Reaches (refuse cause start stop : Reader source α) p Q := by
  rw [Reader.refuse]
  split
  · exact .throw _
  · exact .throw _

theorem anglesBehind (t : TokenSpan) (depth : Nat) :
    Reaches (TokenSpans.anglesBehind t depth : Reader source Nat) p fun _ q => q = p ∧ True := by
  rw [TokenSpans.anglesBehind]
  split_ifs
  · exact .pure ⟨rfl, trivial⟩
  · exact (less depth).mono fun _ _ h => ⟨h.1, trivial⟩
  · exact .pure ⟨rfl, trivial⟩

theorem tokenBefore (toks : TokenSpans) :
    Reaches (toks.tokenBefore : Reader source (Option TokenSpan)) p fun _ q => q = p ∧ True := by
  refine .bind .get fun pos q h => ?_
  obtain ⟨rfl, -⟩ := h
  split
  · exact .pure ⟨rfl, trivial⟩
  split
  · exact .pure ⟨rfl, trivial⟩
  · exact .throw _

theorem endBefore (toks : TokenSpans) : Reaches (toks.endBefore : Reader source Nat) p fun _ q => q = p ∧ True := by
  refine .bind (tokenBefore toks) fun _ q h => ?_
  obtain ⟨rfl, -⟩ := h
  exact .pure ⟨rfl, trivial⟩

theorem textFrom (toks : TokenSpans) (start : Nat) :
    Reaches (toks.textFrom start : Reader source String) p fun _ q => q = p ∧ True := by
  refine .bind (endBefore toks) fun _ q h => ?_
  obtain ⟨rfl, -⟩ := h
  exact slice start _

end Reader.Reaches

/-- The end of the source is the `n`th of the tokens and no other one; it is the last. -/
structure TokenSpans.EndsAt (toks : TokenSpans) (n : Nat) : Prop where
  length_eq : toks.length = n + 1
  isEnd_iff : ∀ i t, toks[i]? = some t → (t.isEnd = true ↔ i = n)

namespace TokenSpans.EndsAt

open Reader

variable {source : String} {toks : TokenSpans} {n p : Nat} (h : toks.EndsAt n)
include h

theorem tokenAt (k : Nat) :
    Reaches (toks.tokenAt k : Reader source TokenSpan) p fun t q => q = p ∧ (t.isEnd = false ↔ p + k < n) := by
  refine .bind (.less _) fun last q hlast => .bind .get fun pos q' hpos => ?_
  obtain ⟨rfl, hlast⟩ := hlast
  obtain ⟨rfl, rfl⟩ := hpos
  have hlast : last = n := by
    have := h.length_eq
    omega
  subst hlast
  split
  next t ht =>
    refine .pure ⟨rfl, ?_⟩
    rw [← Bool.not_eq_true, h.isEnd_iff _ _ ht]
    omega
  next => exact .throw _

theorem advance (hp : p ≤ n) : Reaches (toks.advance : Reader source TokenSpan) p fun t q =>
    p ≤ q ∧ q ≤ n ∧ (p < n → p < q) ∧ (t.isEnd = false → p < n) := by
  refine .bind (h.tokenAt 0) fun t q ht => ?_
  obtain ⟨rfl, ht⟩ := ht
  split
  next hend =>
    refine .pure ⟨Nat.le_refl _, hp, fun hlt => ?_, ht.mp⟩
    rw [ht.mpr hlt] at hend
    cases hend
  next hend =>
    have hlt := ht.mp (Bool.of_not_eq_true hend)
    refine .bind (.modify _) fun _ q' hq' => ?_
    subst hq'
    exact .pure ⟨Nat.le_succ _, hlt, fun _ => Nat.lt_succ_self _, fun _ => hlt⟩

theorem nameAt (k : Nat) :
    Reaches (toks.nameAt k : Reader source (Option String)) p fun a q => q = p ∧ (a.isSome = true → p + k < n) := by
  refine .bind (h.tokenAt k) fun t q ht => ?_
  obtain ⟨rfl, ht⟩ := ht
  split
  next hname =>
    refine .bind (.slice _ _) fun text q' hq' => ?_
    obtain ⟨rfl, -⟩ := hq'
    exact .pure ⟨rfl, fun _ => ht.mp (TokenSpan.isEnd_of_isName hname)⟩
  next => exact .pure ⟨rfl, fun hsome => by cases hsome⟩

theorem atWord (word : String) :
    Reaches (toks.atWord word : Reader source Bool) p fun a q => q = p ∧ (a = true → p < n) := by
  refine .bind (h.nameAt 0) fun a q ha => ?_
  obtain ⟨rfl, ha⟩ := ha
  refine .pure ⟨rfl, fun hword => ha ?_⟩
  rw [eq_of_beq hword]
  rfl

theorem eat (c : Char) (hp : p ≤ n) :
    Reaches (toks.eat c : Reader source Bool) p fun a q => p ≤ q ∧ q ≤ n ∧ (a = true → p < q) := by
  refine .bind (h.tokenAt 0) fun t q ht => ?_
  obtain ⟨rfl, ht⟩ := ht
  split
  next hmark =>
    refine .bind (h.advance hp) fun _ q' hq' => .pure ⟨hq'.1, hq'.2.1, fun _ => ?_⟩
    exact hq'.2.2.1 (ht.mp (TokenSpan.isEnd_of_isMark hmark))
  next => exact .pure ⟨Nat.le_refl _, hp, fun heq => by cases heq⟩

theorem eatWord (word : String) (hp : p ≤ n) :
    Reaches (toks.eatWord word : Reader source Bool) p fun a q => p ≤ q ∧ q ≤ n ∧ (a = true → p < q) := by
  refine .bind (h.atWord word) fun a q ha => ?_
  obtain ⟨rfl, ha⟩ := ha
  split
  next hword => exact .bind (h.advance hp) fun _ q' hq' => .pure ⟨hq'.1, hq'.2.1, fun _ => hq'.2.2.1 (ha hword)⟩
  next => exact .pure ⟨Nat.le_refl _, hp, fun heq => by cases heq⟩

theorem expect (role : MarkRole) (hp : p ≤ n) :
    Reaches (toks.expect role : Reader source Unit) p fun _ q => p ≤ q ∧ q ≤ n ∧ p < q := by
  refine .bind (h.eat role.mark hp) fun found q hq => ?_
  split
  next hfound => exact .pure ⟨hq.1, hq.2.1, hq.2.2 hfound⟩
  next => exact .bind (h.tokenAt 0) fun t _ _ => .refuse _ _ _ _

theorem expectName (role : NameRole) (hp : p ≤ n) :
    Reaches (toks.expectName role : Reader source String) p fun _ q => p ≤ q ∧ q ≤ n ∧ p < q := by
  refine .bind (h.tokenAt 0) fun t q ht => ?_
  obtain ⟨rfl, ht⟩ := ht
  split
  next hname =>
    refine .bind (h.advance hp) fun _ q' hq' => (Reaches.slice _ _).mono fun _ q'' hq'' => ?_
    obtain ⟨rfl, -⟩ := hq''
    exact ⟨hq'.1, hq'.2.1, hq'.2.2.1 (ht.mp (TokenSpan.isEnd_of_isName hname))⟩
  next => exact .refuse _ _ _ _

theorem skipUseSite (hp : p ≤ n) :
    Reaches (toks.skipUseSite : Reader source Unit) p fun _ q => p ≤ q ∧ q ≤ n ∧ True := by
  refine .bind (h.tokenAt 0) fun _ q hq => .bind (h.tokenAt 1) fun _ q' hq' => .bind (h.tokenAt 2) fun _ q'' hq'' => ?_
  obtain ⟨rfl, -⟩ := hq
  obtain ⟨rfl, -⟩ := hq'
  obtain ⟨rfl, -⟩ := hq''
  split
  · refine .bind (h.advance hp) fun _ q hq => .bind (h.advance hq.2.1) fun _ q' hq' => ?_
    exact .pure ⟨Nat.le_trans hq.1 hq'.1, hq'.2.1, trivial⟩
  · exact .pure ⟨Nat.le_refl _, hp, trivial⟩

theorem variance (hp : p ≤ n) :
    Reaches (toks.variance : Reader source Variance) p fun _ q => p ≤ q ∧ q ≤ n ∧ True := by
  refine .bind (h.nameAt 0) fun _ q hq => .bind (h.tokenAt 1) fun _ q' hq' => ?_
  obtain ⟨rfl, -⟩ := hq
  obtain ⟨rfl, -⟩ := hq'
  split_ifs
  · exact .bind (h.advance hp) fun _ q hq => .pure ⟨hq.1, hq.2.1, trivial⟩
  · exact .bind (h.advance hp) fun _ q hq => .pure ⟨hq.1, hq.2.1, trivial⟩
  · exact .pure ⟨Nat.le_refl _, hp, trivial⟩

theorem atModifier : Reaches (toks.atModifier : Reader source Bool) p fun a q => q = p ∧ (a = true → p < n) := by
  refine .bind (h.nameAt 0) fun a q ha => ?_
  obtain ⟨rfl, ha⟩ := ha
  split
  next word =>
    split
    · refine .bind (h.tokenAt 1) fun _ q' hq' => ?_
      obtain ⟨rfl, -⟩ := hq'
      exact .pure ⟨rfl, fun _ => ha rfl⟩
    · exact .pure ⟨rfl, fun heq => by cases heq⟩
  next => exact .pure ⟨rfl, fun heq => by cases heq⟩

theorem propertyKeyword (hp : p ≤ n) :
    Reaches (toks.propertyKeyword : Reader source (Option Bool)) p fun _ q => p ≤ q ∧ q ≤ n ∧ True := by
  refine .bind (h.eatWord "val" hp) fun _ q hq => ?_
  split
  · exact .pure ⟨hq.1, hq.2.1, trivial⟩
  refine .bind (h.eatWord "var" hq.2.1) fun _ q' hq' => ?_
  split
  · exact .pure ⟨Nat.le_trans hq.1 hq'.1, hq'.2.1, trivial⟩
  · exact .pure ⟨Nat.le_trans hq.1 hq'.1, hq'.2.1, trivial⟩

theorem startsDeclaration : Reaches (toks.startsDeclaration : Reader source Bool) p fun _ q => q = p ∧ True := by
  refine .bind (h.nameAt 0) fun a q ha => ?_
  obtain ⟨rfl, -⟩ := ha
  split
  · refine .bind (.tokenBefore toks) fun _ q' hq' => ?_
    obtain ⟨rfl, -⟩ := hq'
    split_ifs
    · exact .pure ⟨rfl, trivial⟩
    · exact .pure ⟨rfl, trivial⟩
    · exact h.atModifier.mono fun _ _ hq => ⟨hq.1, trivial⟩
  · exact .pure ⟨rfl, trivial⟩

theorem classKind (modifiers : List String) :
    Reaches (toks.classKind modifiers : Reader source (Option ClassKind)) p fun a q => q = p ∧ (a.isSome = true → p < n) := by
  refine .bind (h.nameAt 0) fun word q hword => ?_
  obtain ⟨rfl, hword⟩ := hword
  cases word with
  | none => exact .pure ⟨rfl, fun heq => by cases heq⟩
  | some word => 
    have hlt := hword rfl
    split_ifs <;> exact .pure ⟨rfl, fun _ => hlt⟩

theorem classNamed (kind : ClassKind) (keyword : TokenSpan) (hp : p ≤ n) :
    Reaches (toks.classNamed kind keyword : Reader source (Option TokenSpan)) p fun _ q => p ≤ q ∧ q ≤ n ∧ True := by
  refine .bind (h.tokenAt 0) fun t q ht => .bind (h.nameAt 0) fun _ q' hq' => ?_
  obtain ⟨rfl, -⟩ := ht
  obtain ⟨rfl, -⟩ := hq'
  split_ifs
  · exact .bind (h.advance hp) fun _ q hq => .pure ⟨hq.1, hq.2.1, trivial⟩
  · exact .pure ⟨Nat.le_refl _, hp, trivial⟩
  · exact .bind (.slice _ _) fun _ _ _ => .refuse _ _ _ _

end TokenSpans.EndsAt

/-- A step that only counts. -/
theorem Retraces.tick {n limit : Nat} {source : String} {α : Type} {x : Reader source α} {l : Unit → Walk source α} {t : Trail}
    {P : α → Trail → Prop} (ht : t.Within n limit) (hroom : t.toll n + 1 ≤ limit)
    (h : ∀ u, u.Within n limit → u.place = t.place ∧ u.toll n = t.toll n + 1 → Retraces n limit x (l ()) u P) :
    Retraces n limit x (Walk.step (Pure.pure ()) >>= l) t P := by
  have htick : Retraces n limit (Pure.pure () : Reader source Unit) (Walk.step (Pure.pure ())) t _ :=
    .look (R := fun _ => True) (.pure ⟨rfl, trivial⟩) ht hroom
  have hbind : Retraces n limit ((Pure.pure () : Reader source Unit) >>= fun _ => x) (Walk.step (Pure.pure ()) >>= l) t P :=
    htick.bind fun _ u hu hlook => h u hu hlook.2
  rwa [pure_bind] at hbind

theorem Retraces.refuse {n limit : Nat} {source : String} {α : Type} {t : Trail} {P : α → Trail → Prop} (cause : Cause)
    (start stop : Nat) (ht : t.Within n limit) (hroom : t.toll n + 1 ≤ limit) :
    Retraces n limit (Reader.refuse cause start stop : Reader source α) (Walk.step (Reader.refuse cause start stop)) t P :=
  (step (.refuse cause start stop fun _ _ => False) (fun _ _ h => h.elim) ht hroom).mono fun _ _ h => h.1.elim

end Counterpart.Kotlin
