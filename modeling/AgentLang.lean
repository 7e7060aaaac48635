import AgentLang.Machine
import AgentLang.Main
import AgentLang.Proofs.Caching
import AgentLang.Proofs.Cleanup
import AgentLang.Proofs.Confinement
import AgentLang.Proofs.Damage
import AgentLang.Proofs.Evaluation
import AgentLang.Proofs.FirstError
import AgentLang.Proofs.Independence
import AgentLang.Proofs.Indexing
import AgentLang.Proofs.Layout
import AgentLang.Proofs.Legibility
import AgentLang.Proofs.Leniency
import AgentLang.Proofs.Linkage
import AgentLang.Proofs.Overflow
import AgentLang.Proofs.Packing
import AgentLang.Proofs.Pointing
import AgentLang.Proofs.Progress
import AgentLang.Proofs.Readability
import AgentLang.Proofs.Reporting
import AgentLang.Proofs.Respacing
import AgentLang.Proofs.RoundTrip
import AgentLang.Proofs.Safety
import AgentLang.Proofs.Scoping
import AgentLang.Proofs.Sources
import AgentLang.Proofs.Termination
import AgentLang.Proofs.Tiling
import AgentLang.Source.Locate
import AgentLang.Volume
