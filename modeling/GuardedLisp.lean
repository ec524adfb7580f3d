import GuardedLisp.Main
import GuardedLisp.Source.Cursor
import GuardedLisp.Proofs.Accounts
import GuardedLisp.Proofs.Adequacy
import GuardedLisp.Proofs.Capabilities
import GuardedLisp.Proofs.Coherence.Reached
import GuardedLisp.Proofs.Equality.Memo
import GuardedLisp.Proofs.Isolation
import GuardedLisp.Proofs.Joined.Run
import GuardedLisp.Proofs.Nesting
import GuardedLisp.Proofs.Parsing.Blame
import GuardedLisp.Proofs.Printing.Survival
import GuardedLisp.Proofs.Provenance
import GuardedLisp.Proofs.Reset
import GuardedLisp.Proofs.Scopes.Laws
import GuardedLisp.Proofs.Truncation
import GuardedLisp.Proofs.Double.Comparison
import GuardedLisp.Proofs.Equality.Laws
import GuardedLisp.Proofs.Equality.Agreement
import GuardedLisp.Proofs.Equality.Expansions
import GuardedLisp.Proofs.HostNesting
import GuardedLisp.Proofs.Binding
import GuardedLisp.Proofs.Malformed
import GuardedLisp.Proofs.Walks.Lookahead
import GuardedLisp.Proofs.Lexing.Stream
import GuardedLisp.Proofs.Lists
import GuardedLisp.Proofs.OneLine.Run
import GuardedLisp.Proofs.Crashes.Run
