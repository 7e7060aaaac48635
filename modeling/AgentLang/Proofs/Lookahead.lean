import AgentLang.Proofs.Recognition

/-!
# Reading with one token of lookahead

How a production is used depends on what may come after it. Here a production
is described by two languages, its own and the one of its continuations. A run
of it (`Parser.Runs`) either reads a word, and then the token after the word
rules out every other word of the production (`Reads`), or it reports the first
token with which the tokens so far begin no word and continuation (`Fails`).
Numbers that do not fit begin nothing.

Runs of consecutive productions can be put together without further conditions
(`Runs.seq`). Conditions arise where a production has a choice, and there one
token decides: a choice is made by what the current token cannot start
(`Avoids`).
-/

open scoped Computability

namespace AgentLang

open Grammar

/-! ## What a token cannot start -/

/-- Every word has a first token, and that is not `k`. -/
def Avoids (k : TokenKind) (L : Language TokenKind) : Prop :=
  ∀ ks ∈ L, ∃ k' rest, ks = k' :: rest ∧ k' ≠ k

section Avoids

variable {k k' : TokenKind} {L M : Language TokenKind}

theorem Avoids.word (h : k' ≠ k) : Avoids k (word k') := by
  rintro ks rfl
  exact ⟨k', [], rfl, h⟩

theorem Avoids.ident (h : ∀ name, .ident name ≠ k) : Avoids k ident := by
  rintro ks ⟨name, rfl⟩
  exact ⟨.ident name, [], rfl, h name⟩

theorem Avoids.add (hL : Avoids k L) (hM : Avoids k M) : Avoids k (L + M) := by
  rintro ks (hks | hks)
  · exact hL ks hks
  · exact hM ks hks

theorem Avoids.mul (hL : Avoids k L) : Avoids k (L * M) := by
  rintro - ⟨ks, hks, ms, -, rfl⟩
  obtain ⟨k', rest, rfl, hne⟩ := hL ks hks
  exact ⟨k', rest ++ ms, rfl, hne⟩

theorem Avoids.kstar_mul (hL : Avoids k L) (hM : Avoids k M) : Avoids k (L∗ * M) := by
  rw [← Language.one_add_self_mul_kstar_eq_kstar, add_mul, one_mul, mul_assoc]
  exact hM.add hL.mul

theorem Avoids.not_begins (h : Avoids k L) {ks after : List TokenKind} (hks : ks ∈ L) :
    ¬[k] <+: ks ++ after := by
  obtain ⟨k', rest, rfl, hne⟩ := h ks hks
  simpa [List.cons_prefix_cons, eq_comm] using hne

end Avoids

/-! ## Words and continuations -/

theorem inRange_nil : InRange [] := fun _ h => absurd h List.not_mem_nil

theorem inRange_single {k : TokenKind} (h : ∀ digits, .number digits ≠ k) : InRange [k] :=
  fun digits hd => absurd (List.mem_singleton.mp hd) (h digits)

/-- After `ks` and with `next` to come, `ks` is the only word that can have been
meant. -/
def Decides (L K : Language TokenKind) (ks : List TokenKind) (next : TokenKind) : Prop :=
  ∀ ks' ∈ L, ∀ after ∈ K, ks ++ [next] <+: ks' ++ after → ks' = ks

/-- The tokens begin no word and continuation. -/
def Dead (L K : Language TokenKind) (ks : List TokenKind) : Prop :=
  InRange ks → ∀ ks' ∈ L, ∀ after ∈ K, ¬ks <+: ks' ++ after

section Words

variable {L M K : Language TokenKind} {ks ms : List TokenKind}

theorem Avoids.dead {k : TokenKind} (h : Avoids k L) : Dead L K [k] :=
  fun _ _ hks _ _ => h.not_begins hks

theorem Dead.mul (h : Dead L (M * K) ks) : Dead (L * M) K ks := by
  rintro hr - ⟨ls, hls, ms, hms, rfl⟩ after hafter
  rw [List.append_assoc]
  exact h hr ls hls (ms ++ after) (Language.append_mem_mul hms hafter)

/-- A word of the first language that is decided by the next token is the
first part of everything that goes on with that token. -/
theorem Decides.split {first : TokenKind} (h : Decides L (M * K) ks first)
    (hfirst : [first] <+: ms) {ls ms' after : List TokenKind} (hls : ls ∈ L) (hms : ms' ∈ M)
    (hafter : after ∈ K) (hpre : ks ++ ms <+: (ls ++ ms') ++ after) :
    ls = ks ∧ ms <+: ms' ++ after := by
  rw [List.append_assoc] at hpre
  have hlonger : ks ++ [first] <+: ks ++ ms := (List.prefix_append_right_inj ks).mpr hfirst
  obtain rfl := h ls hls (ms' ++ after) (Language.append_mem_mul hms hafter)
    (hlonger.trans hpre)
  exact ⟨rfl, (List.prefix_append_right_inj ls).mp hpre⟩

end Words

namespace Parser

/-! ## Runs -/

/-- The tokens still to be read, with the end of the file. -/
def stream (p : Parser) : List Token := p.unread ++ [⟨.eof, p.eof⟩]

/-- `q` is `p` after a word that the current token of `q` decides. -/
def Reads (p : Parser) (L K : Language TokenKind) (q : Parser) : Prop :=
  q.errors = p.errors ∧ ∃ ts, p.stream = ts ++ q.stream ∧ ts.map Token.kind ∈ L ∧
    InRange (ts.map Token.kind) ∧ Decides L K (ts.map Token.kind) q.current.kind

/-- The error is at the first token that leaves no word and continuation. -/
def Fails (p : Parser) (L K : Language TokenKind) (e : SyntaxError) : Prop :=
  ∃ ts t rest, p.stream = ts ++ t :: rest ∧ e.span = t.span ∧
    (∃ more, ts.map Token.kind ++ more ∈ L) ∧ InRange (ts.map Token.kind) ∧
    Dead L K (ts.map Token.kind ++ [t.kind])

/-- `q` came out of `p` with new errors, and the first of them is right. -/
def Errs (p : Parser) (L K : Language TokenKind) (q : Parser) : Prop :=
  ∃ e, p.errors ++ [e] <+: q.errors ∧ p.Fails L K e

/-- `q` came out of `p` by reading a word, or with a first error that is right. -/
def Runs (p : Parser) (L K : Language TokenKind) (q : Parser) : Prop :=
  p.Reads L K q ∨ p.Errs L K q

/-- A run of a production that can fail, its error not reported yet. -/
inductive Settles {α : Type} (p : Parser) (L K : Language TokenKind) :
    Except SyntaxError α × Parser → Prop
  | ok {x : α} {q : Parser} : p.Runs L K q → Settles p L K (.ok x, q)
  | error {e : SyntaxError} {q : Parser} : p.Errs L K (q.report e) →
      Settles p L K (.error e, q)

theorem exists_stream (p : Parser) : ∃ rest, p.stream = p.current :: rest := by
  unfold stream current
  cases p.unread with
  | nil => exact ⟨[], rfl⟩
  | cons t ts => exact ⟨ts ++ [⟨.eof, p.eof⟩], rfl⟩

theorem stream_advance {p : Parser} (h : p.current.kind ≠ .eof) :
    p.stream = p.current :: p.advance.stream := by
  unfold current at h
  unfold stream current advance
  split at h
  · exact absurd rfl h
  · next t ts hu => simp [hu]

/-- Tokens that are split off the stream start with the current one. -/
theorem current_begins {p : Parser} {ts rest : List Token} {t : Token}
    (h : p.stream = ts ++ t :: rest) :
    [p.current.kind] <+: ts.map Token.kind ++ [t.kind] := by
  obtain ⟨rest', heq⟩ := p.exists_stream
  rw [heq] at h
  cases ts with
  | nil =>
      obtain ⟨rfl, -⟩ := List.cons.inj h
      exact List.prefix_refl _
  | cons t' ts =>
      obtain ⟨rfl, -⟩ := List.cons.inj h
      exact ⟨ts.map Token.kind ++ [t.kind], rfl⟩

section Runs

variable {p q r : Parser} {L M K : Language TokenKind} {α : Type}

theorem Settles.of_ok {x : α} {s : Except SyntaxError α × Parser} (h : p.Settles L K s)
    (hs : s = (.ok x, q)) : p.Runs L K q := by
  subst hs
  cases h with
  | ok hrun => exact hrun

theorem Settles.of_error {e : SyntaxError} {s : Except SyntaxError α × Parser}
    (h : p.Settles L K s) (hs : s = (.error e, q)) : p.Errs L K (q.report e) := by
  subst hs
  cases h with
  | error herr => exact herr

theorem Errs.later (h : p.Errs L K q) (hr : q.errors <+: r.errors) : p.Errs L K r := by
  obtain ⟨e, he, hfail⟩ := h
  exact ⟨e, he.trans hr, hfail⟩

theorem Errs.errors (h : p.Errs L K q) : p.errors <+: q.errors := by
  obtain ⟨e, he, -⟩ := h
  exact (List.prefix_append _ _).trans he

theorem Runs.errors (h : p.Runs L K q) : p.errors <+: q.errors := by
  rcases h with ⟨heq, -⟩ | herr
  · exact heq ▸ List.prefix_refl _
  · exact herr.errors

/-! ## One production after another -/

/-- What comes after an error does not move it. -/
theorem Errs.skip (h : p.Errs L (M * K) q) (hM : ∃ ms, ms ∈ M) : p.Errs (L * M) K q := by
  obtain ⟨e, he, ts, t, rest, hp, hspan, ⟨more, hmore⟩, hr, hdead⟩ := h
  obtain ⟨ms, hms⟩ := hM
  refine ⟨e, he, ts, t, rest, hp, hspan, ⟨more ++ ms, ?_⟩, hr, hdead.mul⟩
  rw [← List.append_assoc]
  exact Language.append_mem_mul hmore hms

theorem Reads.seq (h : p.Reads L (M * K) q) (h' : q.Reads M K r) : p.Reads (L * M) K r := by
  obtain ⟨herr, ts, hp, hts, hr, hdec⟩ := h
  obtain ⟨herr', us, hq, hus, hr', hdec'⟩ := h'
  refine ⟨herr'.trans herr, ts ++ us, by rw [hp, hq, List.append_assoc], ?_, ?_, ?_⟩
  · rw [List.map_append]
    exact Language.append_mem_mul hts hus
  · rw [List.map_append]
    exact inRange_append.mpr ⟨hr, hr'⟩
  · rw [List.map_append]
    rintro - ⟨ls, hls, ms, hms, rfl⟩ after hafter hpre
    rw [List.append_assoc] at hpre
    obtain ⟨rest, hrest⟩ := r.exists_stream
    obtain ⟨rfl, hmore⟩ := hdec.split (current_begins (hq.trans (by rw [hrest]))) hls hms hafter
      hpre
    rw [hdec' ms hms after hafter hmore]

theorem Reads.errs (h : p.Reads L (M * K) q) (h' : q.Errs M K r) : p.Errs (L * M) K r := by
  obtain ⟨herr, ts, hp, hts, hr, hdec⟩ := h
  obtain ⟨e, he, us, t, rest, hq, hspan, ⟨more, hmore⟩, hr', hdead⟩ := h'
  rw [herr] at he
  refine ⟨e, he, ts ++ us, t, rest, by rw [hp, hq, List.append_assoc], hspan, ⟨more, ?_⟩, ?_, ?_⟩
  · rw [List.map_append, List.append_assoc]
    exact Language.append_mem_mul hts hmore
  · rw [List.map_append]
    exact inRange_append.mpr ⟨hr, hr'⟩
  · rw [List.map_append, List.append_assoc]
    rintro hrange - ⟨ls, hls, ms, hms, rfl⟩ after hafter hpre
    obtain ⟨rfl, hmore⟩ := hdec.split (current_begins hq) hls hms hafter hpre
    exact hdead (inRange_append.mp hrange).2 ms hms after hafter hmore

theorem Errs.inhabited (h : p.Errs L K q) : ∃ ks, ks ∈ L := by
  obtain ⟨e, -, ts, t, rest, -, -, ⟨more, hmore⟩, -⟩ := h
  exact ⟨_, hmore⟩

theorem Runs.inhabited (h : p.Runs L K q) : ∃ ks, ks ∈ L := by
  rcases h with ⟨-, ts, -, hts, -⟩ | herr
  · exact ⟨_, hts⟩
  · exact herr.inhabited

theorem Settles.inhabited {s : Except SyntaxError α × Parser} (h : p.Settles L K s) :
    ∃ ks, ks ∈ L := by
  cases h with
  | ok hrun => exact hrun.inhabited
  | error herr => exact herr.inhabited

theorem Runs.errs (h : p.Runs L (M * K) q) (h' : q.Errs M K r) : p.Errs (L * M) K r := by
  rcases h with hreads | herr
  · exact hreads.errs h'
  · exact (herr.skip h'.inhabited).later h'.errors

theorem Runs.seq (h : p.Runs L (M * K) q) (h' : q.Runs M K r) : p.Runs (L * M) K r := by
  rcases h with hreads | herr
  · rcases h' with hreads' | herr'
    · exact Or.inl (hreads.seq hreads')
    · exact Or.inr (hreads.errs herr')
  · exact Or.inr ((herr.skip h'.inhabited).later h'.errors)

theorem Runs.settles {s : Except SyntaxError α × Parser} (h : p.Runs L (M * K) q)
    (h' : q.Settles M K s) : p.Settles (L * M) K s := by
  cases h' with
  | ok hrun => exact .ok (h.seq hrun)
  | error herr => exact .error (h.errs herr)

/-! ## Choices -/

/-- The current token leaves only the words of a smaller language. -/
structure Commits (p : Parser) (L M K : Language TokenKind) : Prop where
  le : L ≤ M
  only : ∀ ks ∈ M, ∀ after ∈ K, [p.current.kind] <+: ks ++ after → ks ∈ L

theorem Commits.reads (hc : p.Commits L M K) (h : p.Reads L K q) : p.Reads M K q := by
  obtain ⟨herr, ts, hp, hts, hr, hdec⟩ := h
  refine ⟨herr, ts, hp, hc.le hts, hr, fun ks hks after hafter hpre => ?_⟩
  obtain ⟨rest, hrest⟩ := q.exists_stream
  have hfirst := current_begins (hp.trans (by rw [hrest]))
  exact hdec ks (hc.only ks hks after hafter (hfirst.trans hpre)) after hafter hpre

theorem Commits.errs (hc : p.Commits L M K) (h : p.Errs L K q) : p.Errs M K q := by
  obtain ⟨e, he, ts, t, rest, hp, hspan, ⟨more, hmore⟩, hr, hdead⟩ := h
  refine ⟨e, he, ts, t, rest, hp, hspan, ⟨more, hc.le hmore⟩, hr, ?_⟩
  intro hrange ks hks after hafter hpre
  have honly := hc.only ks hks after hafter ((current_begins hp).trans hpre)
  exact hdead hrange ks honly after hafter hpre

theorem Commits.runs (hc : p.Commits L M K) (h : p.Runs L K q) : p.Runs M K q :=
  h.imp hc.reads hc.errs

theorem Commits.settles {s : Except SyntaxError α × Parser} (hc : p.Commits L M K)
    (h : p.Settles L K s) : p.Settles M K s := by
  cases h with
  | ok hrun => exact .ok (hc.runs hrun)
  | error herr => exact .error (hc.errs herr)

theorem Commits.left (h : Avoids p.current.kind M) : p.Commits L (L + M) K := by
  refine ⟨le_sup_left, ?_⟩
  rintro ks (hks | hks) after - hpre
  · exact hks
  · exact absurd hpre (h.not_begins hks)

theorem Commits.right (h : Avoids p.current.kind L) : p.Commits M (L + M) K := by
  refine ⟨le_sup_right, ?_⟩
  rintro ks (hks | hks) after - hpre
  · exact absurd hpre (h.not_begins hks)
  · exact hks

/-- Nothing is left out if what follows cannot start here. -/
theorem Commits.present (h : Avoids p.current.kind K) : p.Commits L (optional L) K := by
  refine ⟨le_sup_right, ?_⟩
  rintro ks (rfl | hks) after hafter hpre
  · rw [List.nil_append, ← List.append_nil after] at hpre
    exact absurd hpre (h.not_begins hafter)
  · exact hks

/-- A repetition goes on if what follows cannot start here. -/
theorem Commits.again (h : Avoids p.current.kind K) : p.Commits (L * L∗) L∗ K := by
  have hc : p.Commits (L * L∗) (1 + L * L∗) K := .present h
  rwa [Language.one_add_self_mul_kstar_eq_kstar] at hc

theorem Runs.absent (h : Avoids p.current.kind L) : p.Runs (optional L) K p := by
  refine Or.inl ⟨rfl, [], rfl, Or.inl rfl, inRange_nil, ?_⟩
  rintro ks (rfl | hks) after - hpre
  · rfl
  · exact absurd hpre (h.not_begins hks)

theorem Runs.done (h : Avoids p.current.kind L) : p.Runs L∗ K p := by
  have habsent : p.Runs (1 + L * L∗) K p := .absent h.mul
  rwa [Language.one_add_self_mul_kstar_eq_kstar] at habsent

end Runs

/-! ## Single tokens -/

/-- The current token is to blame. -/
theorem Errs.here {p : Parser} {L K : Language TokenKind} {e : SyntaxError}
    (hspan : e.span = p.current.span) (hL : ∃ ks, ks ∈ L) (h : Dead L K [p.current.kind]) :
    p.Errs L K (p.report e) := by
  obtain ⟨rest, hp⟩ := p.exists_stream
  exact ⟨e, List.prefix_refl _, [], p.current, rest, hp, hspan, hL, inRange_nil, h⟩

/-- A language of single tokens. -/
def Single (L : Language TokenKind) : Prop := ∀ ks ∈ L, ∃ k, ks = [k]

theorem single_word (k : TokenKind) : Single (word k) := by
  rintro ks rfl
  exact ⟨k, rfl⟩

theorem single_ident : Single ident := by
  rintro ks ⟨name, rfl⟩
  exact ⟨.ident name, rfl⟩

theorem Single.add {L M : Language TokenKind} (hL : Single L) (hM : Single M) :
    Single (L + M) := by
  rintro ks (hks | hks)
  · exact hL ks hks
  · exact hM ks hks

theorem Runs.token {p : Parser} {L K : Language TokenKind} (hL : Single L)
    (h : [p.current.kind] ∈ L) (heof : p.current.kind ≠ .eof) (hr : InRange [p.current.kind]) :
    p.Runs L K p.advance := by
  refine Or.inl ⟨p.errors_advance, [p.current], stream_advance heof, h, hr, ?_⟩
  intro ks hks after hafter hpre
  obtain ⟨k, rfl⟩ := hL ks hks
  obtain ⟨rfl, -⟩ := List.cons_prefix_cons.mp hpre
  rfl

theorem Single.dead {L K : Language TokenKind} {k : TokenKind} (hL : Single L) (h : [k] ∉ L) :
    Dead L K [k] := by
  intro _ ks hks after hafter hpre
  obtain ⟨k', rfl⟩ := hL ks hks
  obtain ⟨rfl, -⟩ := List.cons_prefix_cons.mp hpre
  exact h hks

end Parser

end AgentLang
