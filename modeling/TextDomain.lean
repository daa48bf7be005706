import TextDomain.Main
import TextDomain.Proofs.Settling
import TextDomain.Proofs.Layout
import TextDomain.Proofs.Logging
import TextDomain.Proofs.Outcome
import TextDomain.Proofs.Runs
import TextDomain.Proofs.Verdict
import TextDomain.Proofs.Progress
import TextDomain.Proofs.Independence
import TextDomain.Proofs.Issues
import TextDomain.Proofs.Calls
import TextDomain.Proofs.Patching
import TextDomain.Proofs.Strings
import TextDomain.Proofs.Heredocs
import TextDomain.Proofs.Lines
import TextDomain.Proofs.Tags
import TextDomain.Proofs.Faults
import TextDomain.Proofs.Names
import TextDomain.Proofs.Excerpts
import TextDomain.Proofs.Previews
import TextDomain.Proofs.JsonTokens
import TextDomain.Proofs.JsonValues
import TextDomain.Proofs.JsonLines
import TextDomain.Proofs.LogLines
import TextDomain.Proofs.Filters
import TextDomain.Proofs.Journals
import TextDomain.Proofs.LogArguments
import TextDomain.Proofs.Resuming
import TextDomain.Proofs.Discovery
