/-!
The description of the operator that a service version carries.
-/

namespace OperatorBundle.Bundle

/-- The lines of the description. -/
def descriptionLines : List String := [
  "The Red Hat Quay Operator deploys and manages a production-ready",
  "[Red Hat Quay](https://www.openshift.com/products/quay) private container registry.",
  "This operator provides an opinionated installation and configuration of Red Hat Quay.",
  "All components required, including Clair, database, and storage, are provided in an",
  "operator-managed fashion. Each component may optionally be self-managed.",
  "",
  "## Operator Features",
  "",
  "* Automated installation of Red Hat Quay",
  "* Provisions instance of Redis",
  "* Provisions PostgreSQL to support both Quay and Clair",
  "* Installation of Clair for container scanning and integration with Quay",
  "* Provisions and configures ODF for supported registry object storage",
  "* Enables and configures Quay's registry mirroring feature",
  "",
  "## Prerequisites",
  "",
  "By default, the Red Hat Quay Operator expects ODF to be installed on the cluster to",
  "provide the _ObjectBucketClaim_ API for object storage. For production deployment of",
  "Red Hat OpenShift Data Foundation, please refer to the",
  "[official documentation](https://access.redhat.com/documentation/en-us/" ++
    "red_hat_openshift_container_storage/).",
  "",
  "## Simplified Deployment",
  "",
  "The following example provisions a fully operator-managed deployment of Red Hat Quay,",
  "including all services necessary for production:",
  "",
  "```",
  "apiVersion: quay.redhat.com/v1",
  "kind: QuayRegistry",
  "metadata:",
  "  name: my-registry",
  "```",
  "",
  "## Documentation",
  "",
  "See the",
  "[official documentation](https://access.redhat.com/documentation/en-us/" ++
    "red_hat_quay/3/html/" ++
    "deploying_the_red_hat_quay_operator_on_openshift_container_platform/index)",
  "for more complex deployment scenarios and information."]

/-- The description: its lines, each with a line feed. -/
def description : String := String.join (descriptionLines.map fun line => line ++ "\n")

end OperatorBundle.Bundle
