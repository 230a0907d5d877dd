import RegexScan.CharSet.Basic
import RegexScan.Dfa.Determinize
import RegexScan.Fuzz
import RegexScan.Grep.Run
import RegexScan.Machine.Basic
import RegexScan.Main
import RegexScan.Nfa.Thompson
import RegexScan.Random.Pattern
import RegexScan.Random.Pcg
import RegexScan.Regex.Ends
import RegexScan.Regex.Outline
import RegexScan.Proofs.Regex.Ends
import RegexScan.Proofs.Nfa.Path
import RegexScan.Proofs.Nfa.Thompson
import RegexScan.Proofs.Nfa.Accepted
import RegexScan.Proofs.Dfa.Partition
import RegexScan.Proofs.Dfa.Subset
import RegexScan.Proofs.Dfa.Determinize
import RegexScan.Proofs.Machine.Scan
import RegexScan.Proofs.Machine.Agreement
import RegexScan.Proofs.CharSet.Canonical
import RegexScan.Proofs.Pattern.CharClass
import RegexScan.Proofs.Pattern.Soundness
import RegexScan.Proofs.Pattern.Completeness
import RegexScan.Proofs.Dfa.Deterministic
import RegexScan.Proofs.Dfa.Pieces
import RegexScan.Proofs.Dfa.Reachable
import RegexScan.Proofs.Reader.Polls
import RegexScan.Proofs.Machine.HandOut
import RegexScan.Proofs.Machine.Failure
import RegexScan.Proofs.Machine.Joined
import RegexScan.Proofs.Pattern.Written
import RegexScan.Proofs.Machine.EndOfInput
import RegexScan.Proofs.Machine.Checked
import RegexScan.Proofs.Dfa.Limit
import RegexScan.Proofs.Regex.Worklist
import RegexScan.Proofs.Reader.LongestText
import RegexScan.Proofs.Pattern.FirstImpossible
import RegexScan.Proofs.Machine.FailedRead
import RegexScan.Proofs.CharSet.Unchecked
import RegexScan.Proofs.Machine.Rules
import RegexScan.Proofs.Machine.Build
import RegexScan.Proofs.Pattern.Tiling
import RegexScan.Proofs.Machine.Literal
import RegexScan.Proofs.Regex.Outline
import RegexScan.Proofs.Random.Pattern
import RegexScan.Proofs.Dfa.Numbering
